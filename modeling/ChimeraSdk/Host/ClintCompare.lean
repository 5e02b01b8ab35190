import ChimeraSdk.Host.ClintTime

/-! # Reprogramming the Comparator

    `clint_set_mtimecmpx` replaces the two words of a comparator one
    after the other, the high word first.  Between the two writes the
    comparator holds the new high word with the old low word, and a timer
    interrupt is pending whenever the counter has reached that mix. -/

open LTS

namespace Clint

/-! ## Section 1: The call -/

/-- The comparator that `timer_idx << 3`, taken in 32 bits, leads to. -/
def timerOf (timer_idx : BitVec 32) : Nat := (timer_idx <<< 3).toNat / 8

namespace Hart

variable {d : Driver}

/-- One instruction of `clint_set_mtimecmpx`. -/
def clint_set_mtimecmpx (timer_idx : BitVec 32) (value : d.Mtime) (s : Hart d) :
    Option (Hart d) :=
  match s.pc with
  | .setCmpHigh =>
      some { s.setCmpHigh (timerOf timer_idx) (d.words value).high with pc := .setCmpLow }
  | .setCmpLow =>
      some { s.setCmpLow (timerOf timer_idx) (d.words value).low with pc := .fence }
  | _ => none

/-- `clint_sleep_until` runs it between its early test and its fence. -/
theorem clint_sleep_until_setCmp {timer_idx : BitVec 32} {value : d.Mtime} {s s' : Hart d}
    (lowFirst : Bool) (h : s.clint_set_mtimecmpx timer_idx value = some s') :
    s.clint_sleep_until (timerOf timer_idx) value lowFirst = some s' := by
  unfold clint_set_mtimecmpx at h
  unfold clint_sleep_until
  cases hpc : s.pc <;> simp only [hpc] at h ⊢ <;> first | exact h | cases h

/-- The interrupt of a timer is pending. -/
def pending (s : Hart d) (timer : Nat) : Prop := s.mtime ≥ (s.mtimecmp timer).value

end Hart

/-- Who moves: the counter, to any later time, or the call. -/
inductive CmpAction where
  | advance (mtime : BitVec 64)
  | core
  deriving DecidableEq, Repr

/-- A call of `clint_set_mtimecmpx` that replaces `old` by `value`, while
    the counter stays below both. -/
def setCmpSystem (d : Driver) (timer_idx : BitVec 32) (old : ClintMtime) (value : d.Mtime) :
    System (Hart d) CmpAction where
  init := fun s => s.pc = .setCmpHigh ∧ s.mtimecmp (timerOf timer_idx) = old ∧
    s.mtime < old.value ∧ s.mtime < (d.words value).value
  next := fun s a =>
    match a with
    | .advance mtime =>
        if s.mtime ≤ mtime ∧ mtime < old.value ∧ mtime < (d.words value).value then
          some { s with mtime := mtime }
        else none
    | .core => s.clint_set_mtimecmpx timer_idx value

/-! ## Section 2: The state between the writes -/

section between

variable {d : Driver} {timer_idx : BitVec 32} {old : ClintMtime} {value : d.Mtime}

/-- What the comparator holds at each point of the call. -/
def held (old new : ClintMtime) : Pc d → ClintMtime
  | .setCmpHigh => old
  | .setCmpLow => { low := old.low, high := new.high }
  | _ => new

structure CmpInv (timer_idx : BitVec 32) (old : ClintMtime) (value : d.Mtime) (s : Hart d) :
    Prop where
  below_old : s.mtime < old.value
  below_new : s.mtime < (d.words value).value
  holds : s.mtimecmp (timerOf timer_idx) = held old (d.words value) s.pc

theorem cmpInv_core {s s' : Hart d} (h : CmpInv timer_idx old value s)
    (hn : s.clint_set_mtimecmpx timer_idx value = some s') : CmpInv timer_idx old value s' := by
  unfold Hart.clint_set_mtimecmpx at hn
  have hholds := h.holds
  cases hpc : s.pc <;> rw [hpc] at hn hholds <;> cases hn
  · -- the high word is replaced, the low word is still the old one
    refine ⟨h.below_old, h.below_new, ?_⟩
    simp [Hart.setCmpHigh, hholds, held]
  · refine ⟨h.below_old, h.below_new, ?_⟩
    simp [Hart.setCmpLow, hholds, held]

theorem cmpInv_reachable {s : Hart d}
    (h : (setCmpSystem d timer_idx old value).Reachable s) : CmpInv timer_idx old value s := by
  apply h.invariant
  · intro s hinit
    obtain ⟨hpc, hold, hbelow, hbelow'⟩ := hinit
    exact ⟨hbelow, hbelow', by rw [hold, hpc]; rfl⟩
  · intro s a s' hs hn
    cases a with
    | core => exact cmpInv_core hs hn
    | advance mtime =>
      simp only [setCmpSystem] at hn
      split at hn
      · rename_i hle
        cases hn
        exact ⟨hle.2.1, hle.2.2, hs.holds⟩
      · cases hn

/-- The mix of the words lies below both values exactly when the high word
    drops and the low word rises. -/
theorem mix_lt_iff (old new : ClintMtime) :
    (ClintMtime.value { low := old.low, high := new.high } < old.value ∧
      ClintMtime.value { low := old.low, high := new.high } < new.value) ↔
      new.high < old.high ∧ old.low < new.low := by
  have := old.low.isLt
  have := new.low.isLt
  rw [BitVec.lt_def, BitVec.lt_def, BitVec.lt_def, BitVec.lt_def, ClintMtime.value_toNat,
    ClintMtime.value_toNat, ClintMtime.value_toNat]
  show new.high.toNat * 2 ^ 32 + old.low.toNat < _ ∧ new.high.toNat * 2 ^ 32 + old.low.toNat < _ ↔ _
  omega

/-- Whatever the call holds, the interrupt is not pending, unless the mix
    lies below both values. -/
theorem not_pending_of_inv {s : Hart d} (h : CmpInv timer_idx old value s)
    (hmix : ¬ ((d.words value).high < old.high ∧ old.low < (d.words value).low)) :
    ¬ s.pending (timerOf timer_idx) := by
  unfold Hart.pending
  rw [h.holds, ge_iff_le, BitVec.not_le]
  cases hpc : s.pc with
  | setCmpHigh => exact h.below_old
  | setCmpLow =>
    -- the mix is not below both values, so it is above one of them
    rw [← mix_lt_iff, not_and_or, BitVec.not_lt, BitVec.not_lt] at hmix
    rcases hmix with hold | hnew
    · have hbelow := h.below_old
      rw [BitVec.lt_def] at hbelow ⊢
      exact Nat.lt_of_lt_of_le hbelow (BitVec.le_def.mp hold)
    · have hbelow := h.below_new
      rw [BitVec.lt_def] at hbelow ⊢
      exact Nat.lt_of_lt_of_le hbelow (BitVec.le_def.mp hnew)
  | _ => exact h.below_new

end between

/-- A hart about to reprogram comparator `timer`, which holds `old`, at a
    given time. -/
def cmpState (d : Driver) (timer : Nat) (old : ClintMtime) (mtime : BitVec 64) : Hart d where
  mtime    := mtime
  mtimecmp := fun i => if i = timer then old else { low := 0, high := 0 }
  msip     := false
  mtie     := true
  mie      := true
  mpie     := true
  pc       := .setCmpHigh
  handler  := none

/-- The mix is reached by a counter that stands at it. -/
theorem pending_of_mix {d : Driver} {timer_idx : BitVec 32} {old : ClintMtime} {value : d.Mtime}
    (hmix : (d.words value).high < old.high ∧ old.low < (d.words value).low) :
    ∃ s, (setCmpSystem d timer_idx old value).Reachable s ∧ s.pc = .setCmpLow ∧
      s.pending (timerOf timer_idx) := by
  have hbelow := (mix_lt_iff old (d.words value)).mpr hmix
  let s₀ := cmpState d (timerOf timer_idx) old
    (ClintMtime.value { low := old.low, high := (d.words value).high })
  have hinit : (setCmpSystem d timer_idx old value).init s₀ :=
    ⟨rfl, by simp [s₀, cmpState], hbelow.1, hbelow.2⟩
  have hs := System.reachable_of_exec (setCmpSystem d timer_idx old value) s₀ [.core] hinit rfl
  refine ⟨_, hs, rfl, ?_⟩
  have hheld := (cmpInv_reachable hs).holds
  unfold Hart.pending
  rw [hheld]
  exact BitVec.le_refl _

/-- **When reprogramming is quiet**: with either driver, no state of the
    call has the interrupt pending, whatever the counter does below both
    values, exactly when the high word does not drop or the low word does
    not rise. -/
theorem set_mtimecmpx_quiet_iff (d : Driver) (timer_idx : BitVec 32) (old : ClintMtime)
    (value : d.Mtime) :
    (∀ s, (setCmpSystem d timer_idx old value).Reachable s → ¬ s.pending (timerOf timer_idx)) ↔
      old.high ≤ (d.words value).high ∨ (d.words value).low ≤ old.low := by
  have hcases : ¬ ((d.words value).high < old.high ∧ old.low < (d.words value).low) ↔
      old.high ≤ (d.words value).high ∨ (d.words value).low ≤ old.low := by
    rw [not_and_or, BitVec.not_lt, BitVec.not_lt]
  rw [← hcases]
  constructor
  · intro hall hmix
    obtain ⟨s, hs, _, hpending⟩ := @pending_of_mix d timer_idx _ _ hmix
    exact hall s hs hpending
  · intro hmix s hs
    exact not_pending_of_inv (cmpInv_reachable hs) hmix

/-- Bringing the comparator forward across a word boundary raises an
    interrupt between the two writes, with either driver. -/
theorem set_mtimecmpx_spurious :
    (¬ ∀ s, (setCmpSystem clint32 0 { low := 0, high := 1 }
      { low := 0x10, high := 0 }).Reachable s →
      ¬ s.pending (timerOf 0)) ∧
    (¬ ∀ s, (setCmpSystem clint64 0 { low := 0, high := 1 } (0x10 : BitVec 64)).Reachable s →
      ¬ s.pending (timerOf 0)) := by
  constructor
  · intro hall
    have hs := System.reachable_of_exec
      (setCmpSystem clint32 0 { low := 0, high := 1 } { low := 0x10, high := 0 })
      (cmpState clint32 0 { low := 0, high := 1 } 5) [.core]
      ⟨rfl, rfl, by decide, by decide⟩ rfl
    exact hall _ hs (by unfold Hart.pending; decide)
  · intro hall
    have hs := System.reachable_of_exec
      (setCmpSystem clint64 0 { low := 0, high := 1 } (0x10 : BitVec 64))
      (cmpState clint64 0 { low := 0, high := 1 } 5) [.core]
      ⟨rfl, rfl, by decide, by decide⟩ rfl
    exact hall _ hs (by unfold Hart.pending; decide)

end Clint
