import ChimeraSdk.Device.Exclusion

/-! # The Index of the Character Buffer

    The buffers lie in `.noinit`, which nobody writes before the first
    character is stored.  `snrt_putchar` compares the size with the length
    of the buffer after each store, and only for equality: a size that
    starts below the length stays below it at every store, and one that
    starts at the length or above is the index of the first store. -/

open LTS

namespace Putc

set_option linter.unusedSectionVars false

variable {C K : Type} [DecidableEq C] [DecidableEq K]
variable {cfg : Config C K} {s s' : State C K} {k : K}

/-! ## Section 1: Power-up -/

/-- At power-up no cluster has been initialised, every core is about to
    print, and the size words of the buffers hold whatever `.noinit`
    holds. -/
structure PowerUp (noinit : K → BitVec 32) (s : State C K) : Prop where
  core : ∀ k, s.core k = .putchar
  init : ∀ c, s.init c = .alloc
  size : ∀ k, (s.buf k).size = (noinit k).toNat

/-- Every store of a character that is enabled is a store into the data of
    the buffer. -/
def StoresInBounds (cfg : Config C K) (s : State C K) : Prop :=
  ∀ k, s.init (cfg.clusterOf k) = .done → s.core k = .putchar → s.text k ≠ [] →
    (s.buf k).size < PUTC_BUFFER_LEN

/-! ## Section 2: The size of one buffer -/

/-- What a program point says about the size of its core's buffer.  It may
    be anything while the core has nothing to print. -/
def CorePc.sizeOk (text : List Char) (size : Nat) : CorePc C → Prop
  | .putchar => text ≠ [] → size < PUTC_BUFFER_LEN
  | .release | .unlock _ => size = 0
  | _ => size ≤ PUTC_BUFFER_LEN

/-- **Size invariant** of the buffer of `k`. -/
def SizeInv (s : State C K) (k : K) : Prop := (s.core k).sizeOk (s.text k) (s.buf k).size

/-- The invariant is about the core, its text and its buffer. -/
theorem SizeInv.of_same (hi : SizeInv s k) (hcore : s'.core k = s.core k)
    (htext : s'.text k = s.text k) (hbuf : s'.buf k = s.buf k) : SizeInv s' k := by
  unfold SizeInv at hi ⊢
  rw [hcore, htext, hbuf]
  exact hi

/-- Initialising a cluster touches no text and no buffer. -/
theorem initStep_buf {c : C} (hn : s.initStep c = some s') :
    s'.text = s.text ∧ s'.buf = s.buf := by
  unfold State.initStep at hn
  split at hn
  all_goals try split at hn
  all_goals cases hn
  all_goals exact ⟨rfl, rfl⟩

/-- A core keeps the invariant of its own buffer: the test after a store
    finds a full buffer, and the flush empties it. -/
theorem sizeInv_core (hi : SizeInv s k) (hn : s.coreStep cfg k = some s') : SizeInv s' k := by
  unfold State.coreStep at hn
  split at hn
  · cases hn
  · unfold SizeInv at hi ⊢
    cases hpc : s.core k <;> simp only [hpc, CorePc.sizeOk] at hn hi
    -- there is room, for the test came behind the last store
    case putchar =>
      cases htext : s.text k with
      | nil => rw [htext] at hn; cases hn
      | cons c rest =>
        rw [htext] at hn hi
        cases hn
        have hlt := hi (List.cons_ne_nil c rest)
        simp only [State.setCore, State.setBuf, Function.update_self, CorePc.sizeOk,
          PutcBuffer.push]
        omega
    case test c =>
      split at hn
      · cases hn
        simpa [State.setCore, CorePc.sizeOk] using hi
      · rename_i hflush
        cases hn
        have hne : (s.buf k).size ≠ PUTC_BUFFER_LEN :=
          fun h => hflush (by simp [PutcBuffer.flushes, h])
        simp only [State.setCore, Function.update_self, CorePc.sizeOk]
        intro _
        omega
    case describe =>
      cases hn
      simpa [State.setCore, State.setBuf, CorePc.sizeOk, PutcBuffer.describe] using hi
    -- the flush empties the buffer
    case reset =>
      cases hn
      simp [State.setCore, State.setBuf, CorePc.sizeOk, PutcBuffer.reset]
    case unlock mutex =>
      cases hn
      simp [State.setCore, State.setLock, CorePc.sizeOk, hi, PUTC_BUFFER_LEN]
    -- no other step moves the size
    all_goals try split at hn
    all_goals cases hn
    all_goals simpa [State.setCore, State.setLock, CorePc.sizeOk] using hi

/-- Nobody else touches the buffer. -/
theorem sizeInv_next {a : Action C K} (hi : SizeInv s k) (hn : next cfg s a = some s') :
    SizeInv s' k := by
  cases a with
  | core k' =>
    by_cases hk : k' = k
    · subst hk
      exact sizeInv_core hi hn
    · have hframe := coreStep_frame hn
      exact hi.of_same (hframe.core k (Ne.symm hk)) (hframe.text k (Ne.symm hk))
        (hframe.buf k (Ne.symm hk))
  | init c =>
    obtain ⟨htext, hbuf⟩ := initStep_buf hn
    exact hi.of_same (congrFun (initStep_frame hn).core k) (congrFun htext k) (congrFun hbuf k)
  | host busy =>
    have hframe := hostStep_frame hn
    exact hi.of_same (congrFun hframe.core k) (congrFun hframe.text k) (congrFun hframe.buf k)

/-- The invariant bounds the index of a store. -/
theorem SizeInv.inBounds (hi : ∀ k, SizeInv s k) : StoresInBounds cfg s := by
  intro k _ hpc htext
  have hk := hi k
  unfold SizeInv at hk
  rw [hpc] at hk
  exact hk htext

/-! ## Section 3: Every run from power-up -/

variable {noinit : K → BitVec 32} {s₀ : State C K}

theorem PowerUp.sizeInv (hp : PowerUp noinit s₀)
    (hsize : ∀ k, s₀.text k ≠ [] → (noinit k).toNat < PUTC_BUFFER_LEN) (k : K) :
    SizeInv s₀ k := by
  unfold SizeInv
  rw [hp.core k, hp.size k]
  exact hsize k

/-- A core that has something to print can come to print it, with its
    buffer as it was at power-up. -/
theorem PowerUp.first_store (hp : PowerUp noinit s₀) (cfg : Config C K) (k : K) :
    ∃ s, ((clusterSystem cfg).startingAt s₀).Reachable s ∧
      s.init (cfg.clusterOf k) = .done ∧ s.core = s₀.core ∧ s.text = s₀.text ∧
      s.buf = s₀.buf := by
  let c := cfg.clusterOf k
  let s₁ := { s₀.setInit c .load with mutexPtr := some c }
  let s₂ := s₁.setInit c (.zero c)
  let s₃ := (s₂.setLock c false).setInit c .done
  have h₁ : s₀.initStep c = some s₁ := by
    unfold State.initStep
    rw [hp.init c]
  have h₂ : s₁.initStep c = some s₂ := by
    have hpc : s₁.init c = .load := Function.update_self ..
    unfold State.initStep
    rw [hpc]
  have h₃ : s₂.initStep c = some s₃ := by
    have hpc : s₂.init c = .zero c := Function.update_self ..
    unfold State.initStep
    rw [hpc]
  refine ⟨s₃, ?_, Function.update_self .., rfl, rfl, rfl⟩
  exact .step (.init c) (.step (.init c) (.step (.init c) (.init rfl) trivial h₁) trivial h₂)
    trivial h₃

/-- **The index of the character buffer**, for any clusters, cores and
    texts, either service loop and every content of `.noinit`: in every
    run from power-up all stores are in bounds, exactly when the size word
    of each core that prints holds less than the length of the buffer. -/
theorem putc_in_bounds_iff (cfg : Config C K) (noinit : K → BitVec 32) (s₀ : State C K)
    (hp : PowerUp noinit s₀) :
    (∀ s, ((clusterSystem cfg).startingAt s₀).Reachable s → StoresInBounds cfg s) ↔
      ∀ k, s₀.text k ≠ [] → (noinit k).toNat < PUTC_BUFFER_LEN := by
  constructor
  · intro hall k htext
    obtain ⟨s, hs, hinit, hcore, hstext, hbuf⟩ := hp.first_store cfg k
    have hlt := hall s hs k hinit (by rw [hcore, hp.core k]) (by rw [hstext]; exact htext)
    rw [hbuf, hp.size k] at hlt
    exact hlt
  · intro hsize s hs
    have hstep : ∀ s a s', (∀ k, SizeInv s k) → True → (clusterSystem cfg).next s a = some s' →
        ∀ k, SizeInv s' k := by
      intro s a s' hi _ hn k
      exact sizeInv_next (hi k) hn
    have hinv : ∀ k, SizeInv s k :=
      System.ReachableUnder.invariant_from (hp.sizeInv hsize) hstep hs
    exact SizeInv.inBounds hinv

/-- The two lines of two clusters, with `size` in each size word. -/
def powerUpLines (size : BitVec 32) : State (Fin 2) (Fin 2) :=
  { twoLines with
    buf := fun _ => { size := size.toNat, syscall_mem := none, data := fun _ => '\x00' } }

/-- From zeroed memory all stores are in bounds. -/
theorem putc_zeroed_in_bounds :
    (∀ s, ((clusterSystem twoClusters).startingAt (powerUpLines 0)).Reachable s →
        StoresInBounds twoClusters s) ↔
      ∀ k, (powerUpLines 0).text k ≠ [] → (0#32).toNat < PUTC_BUFFER_LEN :=
  putc_in_bounds_iff twoClusters (fun _ => 0) (powerUpLines 0)
    ⟨fun _ => rfl, fun _ => rfl, fun _ => rfl⟩

/-- A size word of 1020 is the index of the first store. -/
theorem putc_out_of_bounds :
    ¬ ∀ (noinit : Fin 2 → BitVec 32) (s₀ : State (Fin 2) (Fin 2)), PowerUp noinit s₀ →
        ∀ s, ((clusterSystem twoClusters).startingAt s₀).Reachable s →
          StoresInBounds twoClusters s := by
  intro hall
  have hp : PowerUp (fun _ => 1020) (powerUpLines 1020) :=
    ⟨fun _ => rfl, fun _ => rfl, fun _ => rfl⟩
  obtain ⟨s, hs, hinit, hcore, htext, hbuf⟩ := hp.first_store twoClusters 0
  have hlt := hall _ _ hp s hs 0 hinit (by rw [hcore]; rfl)
    (by rw [htext]; exact List.cons_ne_nil _ _)
  rw [hbuf] at hlt
  exact absurd hlt (by decide)

end Putc
