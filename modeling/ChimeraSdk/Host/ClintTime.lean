import ChimeraSdk.Framework.Sampling
import ChimeraSdk.Host.Clint
import Mathlib.Algebra.Ring.Nat

/-! # Reading the Timer and Waiting for It

    A read of `mtime` takes two or three register accesses, and the
    counter moves on between them.  `clint32` retries until two reads of
    the high word agree, which pins the low word read in between: the
    call returns the counter at one instant.  `clint64` composes whatever
    its two reads find, and a carry between them tears the value.

    On top of the read stand the comparison, the target computation and
    the polling loop of `clint32`, which do 64-bit arithmetic in words. -/

open Sampling

namespace Clint

/-! ## Section 1: Words and the number they stand for -/

@[simp] theorem mtimeHigh_toNat (mtime : BitVec 64) :
    (mtimeHigh mtime).toNat = mtime.toNat / 2 ^ 32 := by
  unfold mtimeHigh
  rw [BitVec.extractLsb'_toNat, Nat.shiftRight_eq_div_pow]
  omega

@[simp] theorem mtimeLow_toNat (mtime : BitVec 64) :
    (mtimeLow mtime).toNat = mtime.toNat % 2 ^ 32 := by
  unfold mtimeLow
  rw [BitVec.extractLsb'_toNat, Nat.shiftRight_zero]

theorem ClintMtime.value_toNat (t : ClintMtime) :
    t.value.toNat = t.high.toNat * 2 ^ 32 + t.low.toNat := by
  unfold ClintMtime.value
  rw [BitVec.toNat_append, ← Nat.shiftLeft_add_eq_or_of_lt t.low.isLt, Nat.shiftLeft_eq]

/-- The two words of one instant make up the counter. -/
theorem ClintMtime.value_words (mtime : BitVec 64) :
    ClintMtime.value { low := mtimeLow mtime, high := mtimeHigh mtime } = mtime := by
  apply BitVec.eq_of_toNat_eq
  rw [ClintMtime.value_toNat, mtimeHigh_toNat, mtimeLow_toNat]
  omega

theorem Clint64.compose_eq (high low : BitVec 32) :
    Clint64.compose high low = ClintMtime.value { low := low, high := high } := by
  unfold compose ClintMtime.value
  rw [← BitVec.setWidth_append_eq_shiftLeft_setWidth_or, BitVec.setWidth_eq]

/-- The counter as the accesses of a run find it: it never runs
    backwards. -/
def NonDecreasing (env : Nat → BitVec 64) : Prop := Monotone fun i => (env i).toNat

theorem NonDecreasing.le {env : Nat → BitVec 64} (h : NonDecreasing env) {i j : Nat}
    (hij : i ≤ j) : env i ≤ env j :=
  BitVec.le_def.mpr (h hij)

/-- A counter that moves once, before access number `k`. -/
def jumpAt (k : Nat) (before after : BitVec 64) (i : Nat) : BitVec 64 :=
  if i < k then before else after

theorem nonDecreasing_jumpAt (k : Nat) {before after : BitVec 64} (h : before ≤ after) :
    NonDecreasing (jumpAt k before after) := by
  intro i j hij
  show (jumpAt k before after i).toNat ≤ (jumpAt k before after j).toNat
  unfold jumpAt
  have hle := BitVec.le_def.mp h
  by_cases hi : i < k
  · by_cases hj : j < k
    · simp [hi, hj]
    · simpa [hi, hj] using hle
  · have hj : ¬ j < k := by omega
    simp [hi, hj]

/-! ## Section 2: The read of `clint32` -/

namespace Clint32

/-- What the words read so far are: the high word of the access before,
    the low word of the access after it. -/
def ReadSoFar (env : Nat → BitVec 64) (n m : Nat) : MtimeRead → Prop
  | .high => n ≤ m
  | .low high => ∃ i, n ≤ i ∧ m = i + 1 ∧ high = mtimeHigh (env i)
  | .check high low => ∃ i, n ≤ i ∧ m = i + 2 ∧ high = mtimeHigh (env i) ∧
      low = mtimeLow (env (i + 1)) ∧ Visits clint_get_mtime env n .high (i + 1) (.low high)

theorem get_mtime_check (mtime : BitVec 64) (high low : BitVec 32) :
    clint_get_mtime mtime (.check high low) =
      if high ≠ mtimeHigh mtime then .inl .high else .inr { low := low, high := high } := rfl

variable {env : Nat → BitVec 64} {n m : Nat} {v : ClintMtime}

theorem readSoFar_of_visits {read : MtimeRead}
    (h : Visits clint_get_mtime env n .high m read) : ReadSoFar env n m read := by
  induction h with
  | entry => exact Nat.le_refl n
  | @access m read read' hvisits ha ih =>
    cases read with
    | high =>
      cases ha
      exact ⟨m, ih, rfl, rfl⟩
    | low high =>
      cases ha
      obtain ⟨i, hi, rfl, hhigh⟩ := ih
      exact ⟨i, hi, rfl, hhigh, rfl, hvisits⟩
    | check high low =>
      obtain ⟨i, hi, rfl, _⟩ := ih
      rw [get_mtime_check] at ha
      split at ha
      · cases ha
        show n ≤ i + 3
        omega
      · cases ha

/-- **The read is a read of one instant**: the high words before and
    after the low word agree, so the counter did not leave the range of
    one high word while the low word was read. -/
theorem get_mtime_instant (hmono : NonDecreasing env)
    (h : Returns clint_get_mtime env n .high m v) :
    ∃ j high, n < j ∧ j < m ∧ Visits clint_get_mtime env n .high j (.low high) ∧
      v.value = env j := by
  obtain ⟨read, hvisits, ha⟩ := h
  have hread := readSoFar_of_visits hvisits
  cases read with
  | high => cases ha
  | low high => cases ha
  | check high low =>
    obtain ⟨i, hi, rfl, hhigh, hlow, hvis⟩ := hread
    rw [get_mtime_check] at ha
    split at ha
    · cases ha
    · rename_i hsame
      cases ha
      refine ⟨i + 1, high, by omega, by omega, hvis, ?_⟩
      -- equal high words at both ends pin the high word in the middle
      have hend : high = mtimeHigh (env (i + 2)) := by simpa using hsame
      have hfirst := congrArg BitVec.toNat hhigh
      have hlast := congrArg BitVec.toNat hend
      rw [mtimeHigh_toNat] at hfirst hlast
      have hle₁ : (env i).toNat ≤ (env (i + 1)).toNat := hmono (by omega)
      have hle₂ : (env (i + 1)).toNat ≤ (env (i + 2)).toNat := hmono (by omega)
      have hmid : high = mtimeHigh (env (i + 1)) := by
        apply BitVec.eq_of_toNat_eq
        rw [mtimeHigh_toNat]
        omega
      rw [hmid, hlow]
      exact ClintMtime.value_words (env (i + 1))

theorem le_get_mtime (hmono : NonDecreasing env)
    (h : Returns clint_get_mtime env n .high m v) : env n ≤ v.value := by
  obtain ⟨j, _, hj, _, _, hv⟩ := get_mtime_instant hmono h
  rw [hv]
  exact hmono.le hj.le

theorem get_mtime_le (hmono : NonDecreasing env)
    (h : Returns clint_get_mtime env n .high m v) : v.value ≤ env m := by
  obtain ⟨j, _, _, hj, _, hv⟩ := get_mtime_instant hmono h
  rw [hv]
  exact hmono.le hj.le

/-- **The read ends**: every retry is due to a carry out of the low word,
    and a counter that never runs backwards has fewer than `2 ^ 32` of
    them. -/
theorem get_mtime_returns (hmono : NonDecreasing env) (n : Nat) :
    ∃ m v, Returns clint_get_mtime env n .high m v := by
  -- induction on the carries that are left
  induction hk : 2 ^ 32 - (mtimeHigh (env n)).toNat using Nat.strongRecOn generalizing n with
  | ind k ih =>
    have hhigh : clint_get_mtime (env n) .high = .inl (.low (mtimeHigh (env n))) := rfl
    have hlow : clint_get_mtime (env (n + 1)) (.low (mtimeHigh (env n))) =
        .inl (.check (mtimeHigh (env n)) (mtimeLow (env (n + 1)))) := rfl
    by_cases hsame : mtimeHigh (env n) = mtimeHigh (env (n + 2))
    · refine ⟨n + 2, ⟨mtimeLow (env (n + 1)), mtimeHigh (env n)⟩, _,
        .access (.access .entry hhigh) hlow, ?_⟩
      rw [get_mtime_check, if_neg (not_not.mpr hsame)]
    · have hretry : clint_get_mtime (env (n + 2))
          (.check (mtimeHigh (env n)) (mtimeLow (env (n + 1)))) = .inl .high := by
        rw [get_mtime_check, if_pos hsame]
      have hne : (mtimeHigh (env n)).toNat ≠ (mtimeHigh (env (n + 2))).toNat :=
        fun heq => hsame (BitVec.eq_of_toNat_eq heq)
      rw [mtimeHigh_toNat, mtimeHigh_toNat] at hne
      have hle₁ : (env n).toNat ≤ (env (n + 2)).toNat := hmono (by omega)
      have hle₂ : (env (n + 2)).toNat ≤ (env (n + 3)).toNat := hmono (by omega)
      have hlt : 2 ^ 32 - (mtimeHigh (env (n + 3))).toNat < k := by
        have := (mtimeHigh (env n)).isLt
        rw [← hk]
        rw [mtimeHigh_toNat] at *
        rw [mtimeHigh_toNat]
        omega
      obtain ⟨m, v, hret⟩ := ih _ hlt (n + 3) rfl
      exact ⟨m, v, ((hret.head hretry).head hlow).head hhigh⟩

end Clint32

/-- **`clint_get_mtime` of `clint32` is linearizable**: it returns, and
    whatever it returns is the counter at one of its reads of the low
    word, hence between the counter at its first and at its last register
    access. -/
theorem Clint32.mtime_read_linearizable (env : Nat → BitVec 64) (hmono : NonDecreasing env)
    (n : Nat) :
    (∃ m v, Returns clint_get_mtime env n .high m v) ∧
    ∀ m v, Returns clint_get_mtime env n .high m v →
      (∃ j high, n < j ∧ j < m ∧ Visits clint_get_mtime env n .high j (.low high) ∧
        v.value = env j) ∧
      env n ≤ v.value ∧ v.value ≤ env m :=
  ⟨get_mtime_returns hmono n, fun _ _ h =>
    ⟨get_mtime_instant hmono h, le_get_mtime hmono h, get_mtime_le hmono h⟩⟩

/-- A carry between the low word and the second read of the high word
    costs one retry, and the read is one of the second attempt. -/
theorem Clint32.carry_read_linearizable :
    ∃ v : ClintMtime,
      Returns clint_get_mtime (jumpAt 2 0x00000000_ffffffff 0x00000001_00000000) 0 .high 5 v ∧
      v.value = 0x00000001_00000000 ∧
      jumpAt 2 0x00000000_ffffffff 0x00000001_00000000 0 ≤ v.value := by
  have hret : Returns clint_get_mtime (jumpAt 2 0x00000000_ffffffff 0x00000001_00000000) 0 .high
      5 { low := 0, high := 1 } := returns_of_run 6 rfl
  have hmono : NonDecreasing (jumpAt 2 0x00000000_ffffffff 0x00000001_00000000) :=
    nonDecreasing_jumpAt 2 (by decide)
  have hlin := (mtime_read_linearizable _ hmono 0).2 5 _ hret
  exact ⟨_, hret, by decide, hlin.2.1⟩

/-! ## Section 3: The read of `clint64`

    Each of the two accesses finds one word of its own instant.  The
    value lies between the two instants exactly when the low word has
    not dropped from the first access to the second. -/

namespace Clint64

variable {lowFirst : Bool} {env : Nat → BitVec 64} {n m : Nat} {v : BitVec 64}

theorem get_mtime_visits {read : MtimeRead}
    (h : Visits (clint_get_mtime lowFirst) env n .first m read) :
    m = n ∧ read = .first ∨
    m = n + 1 ∧
      read = if lowFirst then .high (mtimeLow (env n)) else .low (mtimeHigh (env n)) := by
  induction h with
  | entry => exact .inl ⟨rfl, rfl⟩
  | @access m read read' _ ha ih =>
    rcases ih with ⟨rfl, rfl⟩ | ⟨rfl, rfl⟩
    · right
      refine ⟨rfl, ?_⟩
      cases lowFirst with
      | true => cases ha; rfl
      | false => cases ha; rfl
    · cases lowFirst with
      | true => cases ha
      | false => cases ha

/-- The value of the read, from the counter at its two accesses. -/
def readValue (lowFirst : Bool) (first second : BitVec 64) : BitVec 64 :=
  if lowFirst then compose (mtimeHigh second) (mtimeLow first)
  else compose (mtimeHigh first) (mtimeLow second)

theorem get_mtime_returns_iff :
    Returns (clint_get_mtime lowFirst) env n .first m v ↔
      m = n + 1 ∧ v = readValue lowFirst (env n) (env (n + 1)) := by
  constructor
  · rintro ⟨read, hvisits, ha⟩
    rcases get_mtime_visits hvisits with ⟨rfl, rfl⟩ | ⟨rfl, rfl⟩
    · cases lowFirst with
      | true => cases ha
      | false => cases ha
    · refine ⟨rfl, ?_⟩
      cases lowFirst with
      | true => cases ha; rfl
      | false => cases ha; rfl
  · rintro ⟨rfl, rfl⟩
    cases lowFirst with
    | true => exact ⟨_, .access .entry rfl, rfl⟩
    | false => exact ⟨_, .access .entry rfl, rfl⟩

/-- Between two instants, the composed value is torn exactly when the low
    word has dropped. -/
theorem readValue_within_iff {first second : BitVec 64} (h : first ≤ second) :
    (first ≤ readValue lowFirst first second ∧ readValue lowFirst first second ≤ second) ↔
      mtimeLow first ≤ mtimeLow second := by
  have hle := BitVec.le_def.mp h
  cases lowFirst with
  | true =>
    have hv : (readValue true first second).toNat =
        second.toNat / 2 ^ 32 * 2 ^ 32 + first.toNat % 2 ^ 32 := by
      simp only [readValue, if_true, compose_eq, ClintMtime.value_toNat, mtimeHigh_toNat,
        mtimeLow_toNat]
    rw [BitVec.le_def, BitVec.le_def, BitVec.le_def, hv, mtimeLow_toNat, mtimeLow_toNat]
    omega
  | false =>
    have hv : (readValue false first second).toNat =
        first.toNat / 2 ^ 32 * 2 ^ 32 + second.toNat % 2 ^ 32 := by
      simp only [readValue, if_false, Bool.false_eq_true, compose_eq, ClintMtime.value_toNat,
        mtimeHigh_toNat, mtimeLow_toNat]
    rw [BitVec.le_def, BitVec.le_def, BitVec.le_def, hv, mtimeLow_toNat, mtimeLow_toNat]
    omega

end Clint64

/-- **When `clint_get_mtime` of `clint64` is not torn**: in either order of
    its two reads, the value lies between the counter at the first and at
    the second of them exactly when the low word is not smaller at the
    second. -/
theorem Clint64.mtime_read_within_iff (lowFirst : Bool) (env : Nat → BitVec 64)
    (hmono : NonDecreasing env) (n : Nat) :
    (∀ m v, Returns (clint_get_mtime lowFirst) env n .first m v → env n ≤ v ∧ v ≤ env m) ↔
      mtimeLow (env n) ≤ mtimeLow (env (n + 1)) := by
  have hle : env n ≤ env (n + 1) := hmono.le (Nat.le_succ n)
  have hwithin := @readValue_within_iff lowFirst _ _ hle
  rw [← hwithin]
  constructor
  · intro hall
    exact hall (n + 1) _ (get_mtime_returns_iff.mpr ⟨rfl, rfl⟩)
  · intro h m v hret
    obtain ⟨rfl, rfl⟩ := get_mtime_returns_iff.mp hret
    exact h

/-- Without a carry between them, the two reads are fine. -/
theorem Clint64.quiet_read_within :
    ∃ v, Returns (clint_get_mtime true) (jumpAt 1 5 7) 0 .first 1 v ∧
      jumpAt 1 5 7 0 ≤ v ∧ v ≤ jumpAt 1 5 7 1 := by
  have hret : Returns (clint_get_mtime true) (jumpAt 1 5 7) 0 .first 1 5 := returns_of_run 2 rfl
  have hmono : NonDecreasing (jumpAt 1 5 7) := nonDecreasing_jumpAt 1 (by decide)
  exact ⟨5, hret, (mtime_read_within_iff true _ hmono 0).mpr (by decide) 1 5 hret⟩

/-- A carry between the two reads moves the value by almost `2 ^ 32`
    ticks: ahead when the low word is read first, back to a time before
    the call when the high word is. -/
theorem Clint64.mtime_read_torn :
    (¬ ∀ env n m v, NonDecreasing env →
      Returns (clint_get_mtime true) env n .first m v → env n ≤ v ∧ v ≤ env m) ∧
    (¬ ∀ env n m v, NonDecreasing env →
      Returns (clint_get_mtime false) env n .first m v → env n ≤ v ∧ v ≤ env m) := by
  have hmono : NonDecreasing (jumpAt 1 0x00000000_ffffffff 0x00000001_00000000) :=
    nonDecreasing_jumpAt 1 (by decide)
  constructor
  · intro hall
    have hret : Returns (clint_get_mtime true)
        (jumpAt 1 0x00000000_ffffffff 0x00000001_00000000) 0 .first 1 0x00000001_ffffffff :=
      returns_of_run 2 rfl
    exact absurd (hall _ 0 1 _ hmono hret) (by decide)
  · intro hall
    have hret : Returns (clint_get_mtime false)
        (jumpAt 1 0x00000000_ffffffff 0x00000001_00000000) 0 .first 1 0 := returns_of_run 2 rfl
    exact absurd (hall _ 0 1 _ hmono hret) (by decide)

/-! ## Section 4: Waiting with `clint32`

    `clint_spin_ticks` and `clint_sleep_ticks` add the ticks to the low
    word of the start time and carry into the high word when the sum has
    wrapped around.  The first then polls the counter until it is no
    longer less than that target. -/

/-- The target `clint64` waits for. -/
def Clint64.ticksTarget (start : BitVec 64) (ticks : BitVec 32) : BitVec 64 :=
  start + ticks.setWidth 64

namespace Clint32

/-- The target `clint_spin_ticks` and `clint_sleep_ticks` build. -/
def ticksTarget (start : ClintMtime) (ticks : BitVec 32) : ClintMtime :=
  let target : ClintMtime := { low := start.low + ticks, high := start.high }
  if target.low < start.low then { target with high := target.high + 1 } else target

/-- Where `clint_spin_until` stands is where its current read stands. -/
def clint_spin_until (tgt_mtime : ClintMtime) (mtime : BitVec 64) (read : MtimeRead) :
    MtimeRead ⊕ Unit :=
  match clint_get_mtime mtime read with
  | .inl read' => .inl read'
  | .inr now => if clint_mtime_less_than now tgt_mtime then .inl .high else .inr ()

/-- Where `clint_spin_ticks` stands. -/
inductive SpinTicks where
  | getMtime (read : MtimeRead)
  | spinUntil (target : ClintMtime) (read : MtimeRead)
  deriving DecidableEq, Repr

def clint_spin_ticks (ticks : BitVec 32) (mtime : BitVec 64) : SpinTicks → SpinTicks ⊕ Unit
  | .getMtime read =>
      match clint_get_mtime mtime read with
      | .inl read' => .inl (.getMtime read')
      | .inr start => .inl (.spinUntil (ticksTarget start ticks) .high)
  | .spinUntil target read =>
      match clint_spin_until target mtime read with
      | .inl read' => .inl (.spinUntil target read')
      | .inr () => .inr ()

/-- `clint_sleep_ticks` up to its call of `clint_sleep_until`: the value
    is the target it passes on. -/
def clint_sleep_ticks (ticks : BitVec 32) (mtime : BitVec 64) (read : MtimeRead) :
    MtimeRead ⊕ ClintMtime :=
  match clint_get_mtime mtime read with
  | .inl read' => .inl read'
  | .inr start => .inr (ticksTarget start ticks)

/-! ### The arithmetic -/

theorem less_than_iff (a b : ClintMtime) :
    clint_mtime_less_than a b = true ↔ a.value < b.value := by
  have ha := a.low.isLt
  have hb := b.low.isLt
  rw [BitVec.lt_def, ClintMtime.value_toNat, ClintMtime.value_toNat]
  simp only [clint_mtime_less_than, Bool.or_eq_true, Bool.and_eq_true, decide_eq_true_eq,
    beq_iff_eq, BitVec.lt_def, ← BitVec.toNat_inj]
  omega

/-- **The carry**: a low word that has wrapped around is smaller than the
    one it started from, so the target is the 64-bit sum. -/
theorem ticksTarget_value (start : ClintMtime) (ticks : BitVec 32) :
    (ticksTarget start ticks).value = Clint64.ticksTarget start.value ticks := by
  have hlow := start.low.isLt
  have hticks := ticks.isLt
  have hhigh := start.high.isLt
  apply BitVec.eq_of_toNat_eq
  unfold ticksTarget Clint64.ticksTarget
  rw [BitVec.toNat_add, BitVec.toNat_setWidth, ClintMtime.value_toNat start]
  by_cases hwrap : start.low + ticks < start.low
  · have hsum : 2 ^ 32 ≤ start.low.toNat + ticks.toNat := by
      rw [BitVec.lt_def, BitVec.toNat_add] at hwrap
      omega
    have hone : (1 : BitVec 32).toNat = 1 := rfl
    simp only [hwrap, if_true, ClintMtime.value_toNat, BitVec.toNat_add, hone]
    omega
  · have hsum : start.low.toNat + ticks.toNat < 2 ^ 32 := by
      rw [BitVec.lt_def, BitVec.toNat_add] at hwrap
      omega
    simp only [hwrap, if_false, ClintMtime.value_toNat, BitVec.toNat_add]
    omega

theorem ticksTarget_toNat {start : ClintMtime} {ticks : BitVec 32}
    (h : start.value.toNat + ticks.toNat < 2 ^ 64) :
    (ticksTarget start ticks).value.toNat = start.value.toNat + ticks.toNat := by
  have hticks := ticks.isLt
  rw [ticksTarget_value, Clint64.ticksTarget, BitVec.toNat_add, BitVec.toNat_setWidth]
  omega

/-! ### The loops -/

variable {env : Nat → BitVec 64} {n m : Nat}

/-- Polling is one read after another. -/
theorem spin_until_visits {tgt_mtime : ClintMtime} {read : MtimeRead}
    (h : Visits (clint_spin_until tgt_mtime) env n .high m read) :
    ∃ k, n ≤ k ∧ Visits clint_get_mtime env k .high m read := by
  induction h with
  | entry => exact ⟨n, Nat.le_refl n, .entry⟩
  | @access m read read' _ ha ih =>
    obtain ⟨k, hk, hvisits⟩ := ih
    unfold clint_spin_until at ha
    cases hread : clint_get_mtime (env m) read with
    | inl next =>
      rw [hread] at ha
      cases ha
      exact ⟨k, hk, .access hvisits hread⟩
    | inr now =>
      -- the value is still less than the target: the next read starts here
      rw [hread] at ha
      simp only at ha
      have := hvisits.le
      split at ha
      · cases ha
        exact ⟨m + 1, by omega, .entry⟩
      · cases ha

/-- The loop is left on a read that is no longer less than the target. -/
theorem spin_until_reached (hmono : NonDecreasing env) {tgt_mtime : ClintMtime}
    (h : Returns (clint_spin_until tgt_mtime) env n .high m ()) :
    tgt_mtime.value ≤ env m := by
  obtain ⟨read, hvisits, ha⟩ := h
  obtain ⟨k, _, hread⟩ := spin_until_visits hvisits
  unfold clint_spin_until at ha
  cases hnow : clint_get_mtime (env m) read with
  | inl next => rw [hnow] at ha; cases ha
  | inr now =>
    rw [hnow] at ha
    simp only at ha
    split at ha
    · cases ha
    · rename_i hnot
      rw [less_than_iff] at hnot
      have hle := get_mtime_le hmono ⟨read, hread, hnow⟩
      exact BitVec.le_trans (BitVec.not_lt.mp hnot) hle

/-- What is known of a call of `clint_spin_ticks`: it is reading the start
    time, or it is polling for the target built from it. -/
def SpinSoFar (ticks : BitVec 32) (env : Nat → BitVec 64) (n m : Nat) : SpinTicks → Prop
  | .getMtime read => Visits clint_get_mtime env n .high m read
  | .spinUntil target read => ∃ start k, Returns clint_get_mtime env n .high k start ∧
      target = ticksTarget start ticks ∧
      Visits (clint_spin_until target) env (k + 1) .high m read

theorem spinSoFar_of_visits {ticks : BitVec 32} {pc : SpinTicks}
    (h : Visits (clint_spin_ticks ticks) env n (.getMtime .high) m pc) :
    SpinSoFar ticks env n m pc := by
  induction h with
  | entry => exact .entry
  | @access m pc pc' _ ha ih =>
    cases pc with
    | getMtime read =>
      unfold clint_spin_ticks at ha
      cases hread : clint_get_mtime (env m) read with
      -- the reads of the start time, and then those of the loop
      | inl next =>
        simp only [hread] at ha
        cases ha
        exact .access ih hread
      | inr start =>
        simp only [hread] at ha
        cases ha
        exact ⟨start, m, ⟨read, ih, hread⟩, rfl, .entry⟩
    | spinUntil target read =>
      obtain ⟨start, k, hstart, htarget, hvisits⟩ := ih
      unfold clint_spin_ticks at ha
      cases hread : clint_spin_until target (env m) read with
      | inl next =>
        simp only [hread] at ha
        cases ha
        exact ⟨start, k, hstart, htarget, .access hvisits hread⟩
      | inr u => simp only [hread] at ha; cases ha

theorem spin_ticks_reached {ticks : BitVec 32}
    (hmono : NonDecreasing env)
    (h : Returns (clint_spin_ticks ticks) env n (.getMtime .high) m ()) :
    ∃ start k, Returns clint_get_mtime env n .high k start ∧
      (ticksTarget start ticks).value ≤ env m := by
  obtain ⟨pc, hvisits, ha⟩ := h
  have hspin := spinSoFar_of_visits hvisits
  cases pc with
  | getMtime read =>
    unfold clint_spin_ticks at ha
    cases hread : clint_get_mtime (env m) read <;> simp only [hread] at ha <;> cases ha
  | spinUntil target read =>
    obtain ⟨start, k, hstart, rfl, hpoll⟩ := hspin
    unfold clint_spin_ticks at ha
    cases hread : clint_spin_until (ticksTarget start ticks) (env m) read with
    | inl next => simp only [hread] at ha; cases ha
    | inr u => exact ⟨start, k, hstart, spin_until_reached hmono ⟨read, hpoll, hread⟩⟩

theorem sleep_ticks_visits {ticks : BitVec 32} {read : MtimeRead}
    (h : Visits (clint_sleep_ticks ticks) env n .high m read) :
    Visits clint_get_mtime env n .high m read := by
  induction h with
  | entry => exact .entry
  | @access m read read' _ ha ih =>
    unfold clint_sleep_ticks at ha
    cases hread : clint_get_mtime (env m) read with
    | inl next =>
      rw [hread] at ha
      cases ha
      exact .access ih hread
    | inr start => rw [hread] at ha; cases ha

theorem sleep_ticks_target {ticks : BitVec 32} {target : ClintMtime}
    (h : Returns (clint_sleep_ticks ticks) env n .high m target) :
    ∃ start, Returns clint_get_mtime env n .high m start ∧ target = ticksTarget start ticks := by
  obtain ⟨read, hvisits, ha⟩ := h
  unfold clint_sleep_ticks at ha
  cases hread : clint_get_mtime (env m) read with
  | inl next => rw [hread] at ha; cases ha
  | inr start =>
    rw [hread] at ha
    cases ha
    exact ⟨start, ⟨read, sleep_ticks_visits hvisits, hread⟩, rfl⟩

/-! ### The calls get through -/

/-- `clint_sleep_ticks` reads the start time and passes its target on. -/
theorem sleep_ticks_returns (ticks : BitVec 32) {start : ClintMtime}
    (h : Returns clint_get_mtime env n .high m start) :
    Returns (clint_sleep_ticks ticks) env n .high m (ticksTarget start ticks) := by
  obtain ⟨read, hvisits, hread⟩ := h
  refine ⟨read, hvisits.within id ?_, ?_⟩
  · intro mtime read read' hnext
    simp only [id_eq, clint_sleep_ticks, hnext]
  · simp only [clint_sleep_ticks, hread]

/-- `clint_spin_ticks` reads the start time and polls for its target. -/
theorem spin_ticks_polls (ticks : BitVec 32) {start : ClintMtime}
    (h : Returns clint_get_mtime env n .high m start) :
    Visits (clint_spin_ticks ticks) env n (.getMtime .high) (m + 1)
      (.spinUntil (ticksTarget start ticks) .high) := by
  obtain ⟨read, hvisits, hread⟩ := h
  refine .access (hvisits.within SpinTicks.getMtime ?_) ?_
  · intro mtime read read' hnext
    simp only [clint_spin_ticks, hnext]
  · simp only [clint_spin_ticks, hread]

/-- A read that is still less than the target starts the next one. -/
theorem spin_until_again {tgt_mtime now : ClintMtime}
    (h : Returns clint_get_mtime env n .high m now)
    (hless : clint_mtime_less_than now tgt_mtime = true) :
    Visits (clint_spin_until tgt_mtime) env n .high (m + 1) .high := by
  obtain ⟨read, hvisits, hread⟩ := h
  refine .access (hvisits.within id ?_) ?_
  · intro mtime read read' hnext
    simp only [id_eq, clint_spin_until, hnext]
  · simp only [id_eq, clint_spin_until, hread, hless, if_true]

theorem spin_until_ends {tgt_mtime now : ClintMtime}
    (h : Returns clint_get_mtime env n .high m now)
    (hless : ¬ clint_mtime_less_than now tgt_mtime = true) :
    Returns (clint_spin_until tgt_mtime) env n .high m () := by
  obtain ⟨read, hvisits, hread⟩ := h
  refine ⟨read, hvisits.within id ?_, ?_⟩
  · intro mtime read read' hnext
    simp only [id_eq, clint_spin_until, hnext]
  · simp only [clint_spin_until, hread, if_neg hless]

/-- **The loop ends**: once the counter has reached the target, the next
    read finds it there. -/
theorem spin_until_returns (hmono : NonDecreasing env) {tgt_mtime : ClintMtime} {i : Nat}
    (hi : tgt_mtime.value ≤ env i) (n : Nat) :
    ∃ m, Returns (clint_spin_until tgt_mtime) env n .high m () := by
  -- induction on the accesses that are left until the counter is there
  induction hk : i + 1 - n using Nat.strongRecOn generalizing n with
  | ind k ih =>
    obtain ⟨m, now, hread⟩ := get_mtime_returns hmono n
    by_cases hless : clint_mtime_less_than now tgt_mtime = true
    · have hearly : n ≤ i := by
        by_contra hlate
        have hreached : tgt_mtime.value ≤ now.value :=
          BitVec.le_trans (BitVec.le_trans hi (hmono.le (by omega))) (le_get_mtime hmono hread)
        exact BitVec.not_lt.mpr hreached ((less_than_iff now tgt_mtime).mp hless)
      have hle : n ≤ m := by
        obtain ⟨read, hvisits, _⟩ := hread
        exact hvisits.le
      obtain ⟨m', hret⟩ := ih (i + 1 - (m + 1)) (by omega) (m + 1) rfl
      exact ⟨m', (spin_until_again hread hless).returns hret⟩
    · exact ⟨m, spin_until_ends hread hless⟩

theorem spin_ticks_returns (hmono : NonDecreasing env) {ticks : BitVec 32} {start : ClintMtime}
    (h : Returns clint_get_mtime env n .high m start) {i : Nat}
    (hi : (ticksTarget start ticks).value ≤ env i) :
    ∃ k, Returns (clint_spin_ticks ticks) env n (.getMtime .high) k () := by
  obtain ⟨k, read, hvisits, hend⟩ := spin_until_returns hmono hi (m + 1)
  refine ⟨k, (spin_ticks_polls ticks h).returns ⟨.spinUntil _ read, hvisits.within _ ?_, ?_⟩⟩
  · intro mtime read read' hnext
    simp only [clint_spin_ticks, hnext]
  · simp only [clint_spin_ticks, hend]

end Clint32

/-- **The words do 64-bit arithmetic**: the comparison is the one of
    numbers; both calls get to a target, which is the start time plus the
    ticks; `clint_spin_ticks` returns once the counter has reached it and,
    when that sum does not wrap around, not before. -/
theorem Clint32.split_words_refine (ticks : BitVec 32) (env : Nat → BitVec 64)
    (hmono : NonDecreasing env) (n : Nat) :
    (∀ a b, clint_mtime_less_than a b = true ↔ a.value < b.value) ∧
    (∀ start, (ticksTarget start ticks).value = start.value + ticks.setWidth 64) ∧
    (∃ m target,
      Visits (clint_spin_ticks ticks) env n (.getMtime .high) m (.spinUntil target .high)) ∧
    (∀ m target read,
      Visits (clint_spin_ticks ticks) env n (.getMtime .high) m (.spinUntil target read) →
      ∃ k start, Returns clint_get_mtime env n .high k start ∧
        target.value = start.value + ticks.setWidth 64) ∧
    (∃ m target, Returns (clint_sleep_ticks ticks) env n .high m target) ∧
    (∀ m target, Returns (clint_sleep_ticks ticks) env n .high m target →
      ∃ start, Returns clint_get_mtime env n .high m start ∧
        target.value = start.value + ticks.setWidth 64) ∧
    (∀ k start, Returns clint_get_mtime env n .high k start →
      (∃ i, start.value + ticks.setWidth 64 ≤ env i) →
      ∃ m, Returns (clint_spin_ticks ticks) env n (.getMtime .high) m ()) ∧
    (∀ m, Returns (clint_spin_ticks ticks) env n (.getMtime .high) m () →
      ∃ k start, Returns clint_get_mtime env n .high k start ∧
        (start.value.toNat + ticks.toNat < 2 ^ 64 →
          start.value.toNat + ticks.toNat ≤ (env m).toNat ∧
          (env n).toNat + ticks.toNat ≤ (env m).toNat)) := by
  obtain ⟨m₀, start₀, hread⟩ := get_mtime_returns hmono n
  refine ⟨less_than_iff, fun start => ticksTarget_value start ticks, ?_, ?_, ?_, ?_, ?_, ?_⟩
  · exact ⟨_, _, spin_ticks_polls ticks hread⟩
  · intro m target read h
    obtain ⟨start, k, hstart, rfl, _⟩ := spinSoFar_of_visits h
    exact ⟨k, start, hstart, ticksTarget_value start ticks⟩
  · exact ⟨_, _, sleep_ticks_returns ticks hread⟩
  · intro m target h
    obtain ⟨start, hstart, rfl⟩ := sleep_ticks_target h
    exact ⟨start, hstart, ticksTarget_value start ticks⟩
  · intro k start hstart ⟨i, hi⟩
    apply spin_ticks_returns hmono hstart
    rw [ticksTarget_value]
    exact hi
  · intro m h
    obtain ⟨start, k, hstart, hreached⟩ := spin_ticks_reached hmono h
    refine ⟨k, start, hstart, fun hsum => ?_⟩
    have hentry := BitVec.le_def.mp (le_get_mtime hmono hstart)
    rw [BitVec.le_def, ticksTarget_toNat hsum] at hreached
    omega

/-- Waiting for five ticks from just before a carry: `clint_sleep_ticks`
    passes on a target in the next range of the high word, and
    `clint_spin_ticks` is left there. -/
theorem Clint32.five_ticks_across_carry :
    ∃ env : Nat → BitVec 64, env 0 = 0x00000000_fffffffe ∧
      Returns (clint_spin_ticks 5) env 0 (.getMtime .high) 8 () ∧
      (∃ k start, Returns clint_get_mtime env 0 .high k start ∧
        (start.value.toNat + 5 < 2 ^ 64 → start.value.toNat + 5 ≤ 0x00000001_00000003 ∧
          0x00000000_fffffffe + 5 ≤ 0x00000001_00000003)) ∧
      (∃ m target, Returns (clint_sleep_ticks 5) env 0 .high m target) ∧
      Returns (clint_sleep_ticks 5) env 0 .high 2 { low := 3, high := 1 } := by
  have hmono : NonDecreasing (jumpAt 4 0x00000000_fffffffe 0x00000001_00000003) :=
    nonDecreasing_jumpAt 4 (by decide)
  have hspin : Returns (clint_spin_ticks 5)
      (jumpAt 4 0x00000000_fffffffe 0x00000001_00000003) 0 (.getMtime .high) 8 () :=
    returns_of_run 12 rfl
  have hsleep : Returns (clint_sleep_ticks 5)
      (jumpAt 4 0x00000000_fffffffe 0x00000001_00000003) 0 .high 2 { low := 3, high := 1 } :=
    returns_of_run 3 rfl
  obtain ⟨_, _, _, _, htarget, _, _, hreached⟩ := split_words_refine 5 _ hmono 0
  exact ⟨_, rfl, hspin, hreached 8 hspin, htarget, hsleep⟩

end Clint
