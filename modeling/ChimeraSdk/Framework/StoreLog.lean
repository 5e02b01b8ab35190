import ChimeraSdk.Framework.RiscV

/-! # The Stores a Program Makes

    A memory says which bytes a program has left, not which bytes it has
    written.  Here the stores themselves are kept: beside its state a
    program has the log of the stores its instructions have made, oldest
    first.  What callees and trap handlers store is not in it. -/

namespace WordMemory

/-! ## Section 1: Logs of stores -/

/-- A store of the low `size` bytes of `value`. -/
structure Write (w : Nat) where
  start : BitVec w
  size : Nat
  value : BitVec w
  deriving DecidableEq, Repr

variable {w : Nat} {mem : Memory w} {a v x : BitVec w} {n k : Nat} {log : List (Write w)}

/-- The memory after the stores of a log. -/
def writeAll (mem : Memory w) (log : List (Write w)) : Memory w :=
  log.foldl (fun mem e => store mem e.start e.size e.value) mem

@[simp] theorem writeAll_nil : writeAll mem [] = mem := rfl

theorem writeAll_append {log' : List (Write w)} :
    writeAll mem (log ++ log') = writeAll (writeAll mem log) log' := List.foldl_append

/-- Stores of `v` that fill the first `k` bytes from `a` on, from below and
    each byte once. -/
inductive Fills (v a : BitVec w) : Nat → List (Write w) → Prop where
  | nil : Fills v a 0 []
  | concat (n : Nat) {k : Nat} {log : List (Write w)} : Fills v a k log →
      Fills v a (k + n) (log ++ [⟨a + BitVec.ofNat w k, n, v⟩])

namespace Fills

theorem value (h : Fills v a k log) : ∀ e ∈ log, e.value = v := by
  induction h with
  | nil => intro e he; cases he
  | concat n _ ih =>
    intro e he
    rcases List.mem_append.mp he with hold | hnew
    · exact ih e hold
    · rw [List.mem_singleton.mp hnew]

/-- The bytes that have been stored to. -/
theorem written (h : Fills v a k log) (hk : k ≤ 2 ^ w) :
    (∃ e ∈ log, Within e.start e.size x) ↔ Within a k x := by
  induction h with
  | nil =>
    constructor
    · intro ⟨e, he, _⟩
      cases he
    · intro hin
      cases hin
  | @concat n k log _ ih =>
    -- the old bytes, or those of the last store
    simp only [List.mem_append, List.mem_singleton, or_and_right, exists_or, exists_eq_left]
    rw [ih (by omega), within_offset hk]
    unfold Within
    omega

/-- **Filling with zero**: the bytes stored to are zero, and the others as
    they were. -/
theorem writeAll_zero (h : Fills 0#w a k log) (hk : k ≤ 2 ^ w) :
    writeAll mem log x = if Within a k x then 0#8 else mem x := by
  induction h with
  | nil =>
    have hout : ¬ Within a 0 x := Nat.not_lt_zero _
    rw [if_neg hout, writeAll_nil]
  | @concat n k log _ ih =>
    have hsplit : Within a (k + n) x ↔ Within a k x ∨ Within (a + BitVec.ofNat w k) n x := by
      rw [within_offset hk]
      unfold Within
      omega
    rw [writeAll_append]
    show store (writeAll mem log) (a + BitVec.ofNat w k) n 0#w x = _
    by_cases hlast : Within (a + BitVec.ofNat w k) n x
    · rw [store_inside hlast, if_pos (hsplit.mpr (.inr hlast)), BitVec.toNat_zero, Nat.zero_div]
    · rw [store_outside hlast, ih (by omega)]
      simp only [hsplit, hlast, or_false]

end Fills

/-- A range that does not reach beyond the end of the address space. -/
theorem within_iff_between (h : a.toNat + n ≤ 2 ^ w) :
    Within a n x ↔ a.toNat ≤ x.toNat ∧ x.toNat < a.toNat + n := by
  have hx := x.isLt
  unfold Within
  rw [BitVec.toNat_sub]
  by_cases hle : a.toNat ≤ x.toNat
  · rw [show 2 ^ w - a.toNat + x.toNat = x.toNat - a.toNat + 2 ^ w by omega, Nat.add_mod_right,
      Nat.mod_eq_of_lt (by omega)]
    omega
  · rw [Nat.mod_eq_of_lt (by omega)]
    omega

end WordMemory

namespace RiscV

open WordMemory LTS

variable {w : Nat} {Label Sym Csr Fn : Type}

/-! ## Section 2: Programs with a log -/

/-- The stores an instruction makes. -/
def Instr.stores (m : Machine w Csr Fn) : Instr w Label Sym Csr Fn → List (Write w)
  | .store n rs off base => [⟨Program.operand m off base, n, m.reg rs⟩]
  | _ => []

/-- An instruction that passes control on elsewhere stores nothing. -/
theorem Instr.stores_elsewhere {m : Machine w Csr Fn} {i : Instr w Label Sym Csr Fn}
    (h : i.control ≠ .next ∨ i.jump m ≠ none) : i.stores m = [] := by
  cases i
  case store => exact (h.elim (fun hc => hc rfl) (fun hj => hj rfl)).elim
  all_goals rfl

/-- The stores of a step. -/
def Step.stores (s : State w Label Sym Csr Fn) : Step w Csr → List (Write w)
  | .run =>
      match s.code with
      | [] => []
      | i :: _ => i.stores s.machine
  | _ => []

abbrev Logged (w : Nat) (Label Sym Csr Fn : Type) : Type :=
  State w Label Sym Csr Fn × List (Write w)

namespace Program

variable [DecidableEq Label] [DecidableEq Csr] [DecidableEq Fn]

/-- The program with the log of its stores, from any state on. -/
def logged (P : Program w Label Sym Csr Fn) : System (Logged w Label Sym Csr Fn) (Step w Csr) where
  init s := s.2 = []
  next s l := (P.next s.1 l).map fun s' => (s', s.2 ++ l.stores s.1)

variable {P : Program w Label Sym Csr Fn} {s s' : Logged w Label Sym Csr Fn}

/-- The log is only kept: the states are those of the program. -/
theorem exec_logged {l : Label} {m : Machine w Csr Fn} (ls : List (Step w Csr)) :
    (P.logged.exec s ls).map Prod.fst = (P.system l m).exec s.1 ls := by
  induction ls generalizing s with
  | nil => rfl
  | cons step ls ih =>
    rw [System.exec_cons, System.exec_cons]
    show ((Option.map _ (P.next s.1 step)).bind _).map _ = (P.next s.1 step).bind _
    cases P.next s.1 step with
    | none => rfl
    | some t => exact ih

/-- Where the program with the log arrives, the program arrives. -/
theorem leadsTo_system {l : Label} {m : Machine w Csr Fn} {step : Step w Csr}
    {Q : Logged w Label Sym Csr Fn → Prop} (h : P.logged.LeadsTo step s Q) :
    (P.system l m).LeadsTo step s.1 (fun t => ∃ log, Q (t, log)) := by
  obtain ⟨n, s', hexec, hQ⟩ := h
  refine ⟨n, s'.1, ?_, s'.2, hQ⟩
  rw [← exec_logged, hexec]
  rfl

omit [DecidableEq Fn] in
/-- What an instruction does to the memory are the stores it makes. -/
theorem mem_runStep {s s' : State w Label Sym Csr Fn} {i : Instr w Label Sym Csr Fn}
    {code : List (Instr w Label Sym Csr Fn)} (h : P.runStep s i code = some s') :
    s'.machine.mem = writeAll s.machine.mem (i.stores s.machine) := by
  unfold runStep at h
  cases hcontrol : i.control with
  | call f => rw [hcontrol] at h; cases h
  | ret => rw [hcontrol] at h; cases h
  | mret =>
    rw [hcontrol] at h
    obtain ⟨_, _, rfl⟩ := Option.map_eq_some_iff.mp h
    rw [Instr.stores_elsewhere (.inl (by simp [hcontrol])), writeAll_nil]
  | next =>
    rw [hcontrol] at h
    simp only at h
    cases hjump : i.jump s.machine with
    | some l =>
      rw [hjump] at h
      obtain rfl := Option.some.inj h
      rw [Instr.stores_elsewhere (.inr (by simp [hjump])), writeAll_nil]
    | none =>
      rw [hjump] at h
      obtain rfl := Option.some.inj h
      show (P.effect s.machine i).mem = writeAll s.machine.mem (i.stores s.machine)
      cases i <;> rfl

/-- **The log is complete**: as long as the program runs by itself, the
    memory is the one it started with and the stores of the log. -/
theorem mem_logged {mem : Memory w} (hs : s.1.machine.mem = writeAll mem s.2)
    (h : P.logged.next s .run = some s') : s'.1.machine.mem = writeAll mem s'.2 := by
  obtain ⟨t, hn, rfl⟩ := Option.map_eq_some_iff.mp h
  show t.machine.mem = writeAll mem (s.2 ++ Step.stores s.1 .run)
  unfold next at hn
  cases hcode : s.1.code with
  | nil => rw [hcode] at hn; cases hn
  | cons i code =>
    rw [hcode] at hn
    have hstores : Step.stores s.1 .run = i.stores s.1.machine := by
      unfold Step.stores
      rw [hcode]
    rw [hstores, writeAll_append, ← hs]
    exact mem_runStep hn

/-! ## Section 3: Symbolic execution -/

variable {m : Machine w Csr Fn} {i : Instr w Label Sym Csr Fn}
  {code : List (Instr w Label Sym Csr Fn)} {mepc : Option (List (Instr w Label Sym Csr Fn))}
  {log : List (Write w)} {Q : Logged w Label Sym Csr Fn → Prop}

/-- An instruction that jumps. -/
theorem leadsTo_jump {l : Label} (hcontrol : i.control = .next) (hjump : i.jump m = some l)
    (h : P.logged.LeadsTo .run (⟨m, P.text l, mepc⟩, log) Q) :
    P.logged.LeadsTo .run (⟨m, i :: code, mepc⟩, log) Q := by
  have hstores : i.stores m = [] := Instr.stores_elsewhere (.inr (by simp [hjump]))
  apply System.LeadsTo.step _ h
  show (P.runStep _ i code).map _ = _
  unfold runStep
  rw [hcontrol]
  simp only [hjump, Option.map_some, Step.stores, hstores, List.append_nil]

/-- An instruction that passes on to the next. -/
theorem leadsTo_next (hcontrol : i.control = .next) (hjump : i.jump m = none)
    (h : P.logged.LeadsTo .run (⟨P.effect m i, code, mepc⟩, log ++ i.stores m) Q) :
    P.logged.LeadsTo .run (⟨m, i :: code, mepc⟩, log) Q := by
  apply System.LeadsTo.step _ h
  show (P.runStep _ i code).map _ = _
  unfold runStep
  rw [hcontrol]
  simp only [hjump, Option.map_some, Step.stores]

/-- An instruction on registers alone. -/
theorem leadsTo_quiet (hcontrol : i.control = .next) (hjump : i.jump m = none)
    (hstores : i.stores m = [])
    (h : P.logged.LeadsTo .run (⟨P.effect m i, code, mepc⟩, log) Q) :
    P.logged.LeadsTo .run (⟨m, i :: code, mepc⟩, log) Q := by
  apply leadsTo_next hcontrol hjump
  rw [hstores, List.append_nil]
  exact h

/-- A branch. -/
theorem leadsTo_branch {c : Prop} [Decidable c] {l : Label} (hcontrol : i.control = .next)
    (hjump : i.jump m = if c then some l else none) (heffect : P.effect m i = m)
    (hstores : i.stores m = [])
    (htaken : c → P.logged.LeadsTo .run (⟨m, P.text l, mepc⟩, log) Q)
    (hnot : ¬ c → P.logged.LeadsTo .run (⟨m, code, mepc⟩, log) Q) :
    P.logged.LeadsTo .run (⟨m, i :: code, mepc⟩, log) Q := by
  by_cases hc : c
  · rw [if_pos hc] at hjump
    exact leadsTo_jump hcontrol hjump (htaken hc)
  · rw [if_neg hc] at hjump
    apply leadsTo_quiet hcontrol hjump hstores
    rw [heffect]
    exact hnot hc

end Program

end RiscV
