import ChimeraSdk.Host.ClintTime

/-! # Measuring the Core Frequency

    `clint_get_core_freq` waits for a tick of `mtime`, then counts core
    cycles until a number of further ticks has passed, and divides.  The
    counter `mcycle` it reads has 32 bits and the time of `clint32` comes
    in two words, but the differences are taken in 64 bits.

    The call is modelled access by access.  An instant of the environment
    carries the timer and the true number of core cycles; the two samples
    the estimate is computed from keep both. -/

open Sampling

namespace Clint

/-! ## Section 1: The call -/

/-- What an access finds: the timer, the cycles the core has run, and the
    order in which a read of `clint64` takes its two words. -/
structure Instant where
  mtime    : BitVec 64
  cycles   : Nat
  lowFirst : Bool

/-- The CSR `mcycle`, read as a 32-bit count. -/
def get_mcycle (cycles : Nat) : BitVec 32 := BitVec.ofNat 32 cycles

/-- What `clint_get_core_freq` takes from a driver beside the read of the
    timer: the test of its first loop, the test of its second loop, and
    the divisor. -/
structure FreqDriver extends Driver where
  sameTime : (start end_ : Mtime) → Bool
  tooEarly : (start end_ : Mtime) → (num_ticks : BitVec 32) → Bool
  ticks : (start end_ : Mtime) → BitVec 64

/-- `clint32` bounds the second loop by adding the ticks to the low word. -/
def Clint32.tooEarly (start end_ : ClintMtime) (num_ticks : BitVec 32) : Bool :=
  clint_mtime_less_than end_ { low := start.low + num_ticks, high := start.high }

/-- `clint32` divides by the difference of the low words. -/
def Clint32.ticks (start end_ : ClintMtime) : BitVec 64 :=
  end_.low.setWidth 64 - start.low.setWidth 64

def Clint64.tooEarly (start end_ : BitVec 64) (num_ticks : BitVec 32) : Bool :=
  end_ < start + num_ticks.setWidth 64

def Clint64.ticks (start end_ : BitVec 64) : BitVec 64 := end_ - start

namespace FreqDriver

def clint32 : FreqDriver where
  toDriver := Clint.clint32
  sameTime := fun (start end_ : ClintMtime) =>
    start.low == end_.low && start.high == end_.high
  tooEarly := Clint32.tooEarly
  ticks := Clint32.ticks

def clint64 : FreqDriver where
  toDriver := Clint.clint64
  sameTime := fun (start end_ : BitVec 64) => start == end_
  tooEarly := Clint64.tooEarly
  ticks := Clint64.ticks

end FreqDriver

/-- A sample of both counters: the time read, and the cycles at the read
    of `mcycle` before it. -/
structure Sample (d : FreqDriver) where
  cycles : Nat
  mtime  : d.Mtime

def Sample.mcycle {d : FreqDriver} (s : Sample d) : BitVec 32 := get_mcycle s.cycles

/-- The samples the call ends with. -/
structure Measurement (d : FreqDriver) where
  start : Sample d
  end_  : Sample d

/-- The product of the cycle difference with `ref_freq`, in 64 bits. -/
def Measurement.duration {d : FreqDriver} (r : Measurement d) (ref_freq : BitVec 32) :
    BitVec 64 :=
  (r.end_.mcycle.setWidth 64 - r.start.mcycle.setWidth 64) * ref_freq.setWidth 64

/-- The divisor of the estimate. -/
def Measurement.ticks {d : FreqDriver} (r : Measurement d) : BitVec 64 :=
  d.ticks r.start.mtime r.end_.mtime

/-- The value returned; `none` is a division by zero. -/
def Measurement.freq {d : FreqDriver} (r : Measurement d) (ref_freq : BitVec 32) :
    Option (BitVec 32) :=
  if r.ticks = 0 then none else some ((r.duration ref_freq / r.ticks).setWidth 32)

/-- Where `clint_get_core_freq` stands, with the locals it has assigned:
    the first read of the time, then in each loop the read of `mcycle` and
    the read of the time. -/
inductive FreqPc (d : FreqDriver) where
  | firstTime (read : d.Read)
  | startCycle (end_ : d.Mtime)
  | startTime (end_ : d.Mtime) (start_cycles : Nat) (read : d.Read)
  | endCycle (start : Sample d)
  | endTime (start : Sample d) (end_cycles : Nat) (read : d.Read)

section call

variable {d : FreqDriver}

/-- The read of the time, at an instant. -/
def timeRead (d : FreqDriver) (now : Instant) : d.Read → d.Read ⊕ d.Mtime :=
  d.get_mtime now.lowFirst now.mtime

/-- One access of `clint_get_core_freq`; the value is what its last line
    computes the frequency from. -/
def clint_get_core_freq (d : FreqDriver) (ref_freq ref_time_inv : BitVec 32) (now : Instant) :
    FreqPc d → FreqPc d ⊕ Measurement d
  | .firstTime read =>
      match timeRead d now read with
      | .inl read' => .inl (.firstTime read')
      | .inr end_ => .inl (.startCycle end_)
  | .startCycle end_ => .inl (.startTime end_ now.cycles d.start)
  | .startTime end_ start_cycles read =>
      match timeRead d now read with
      | .inl read' => .inl (.startTime end_ start_cycles read')
      | .inr start =>
          if d.sameTime start end_ then .inl (.startCycle end_)
          else .inl (.endCycle { cycles := start_cycles, mtime := start })
  | .endCycle start => .inl (.endTime start now.cycles d.start)
  | .endTime start end_cycles read =>
      match timeRead d now read with
      | .inl read' => .inl (.endTime start end_cycles read')
      | .inr end_ =>
          let num_ticks := ref_freq / ref_time_inv
          if d.tooEarly start.mtime end_ num_ticks then .inl (.endCycle start)
          else .inr { start := start, end_ := { cycles := end_cycles, mtime := end_ } }

/-- A sample taken from access number `i` on: the cycles at that access,
    and the value of the read of the time that follows it and ends with
    access number `j`. -/
def SampledAt (env : Nat → Instant) (i j : Nat) (s : Sample d) : Prop :=
  s.cycles = (env i).cycles ∧ Returns (timeRead d) env (i + 1) d.start j s.mtime

/-- What the locals are where the call stands. -/
def FreqSoFar (env : Nat → Instant) (n m : Nat) : FreqPc d → Prop
  | .firstTime _ => n ≤ m
  | .startCycle _ => n ≤ m
  | .startTime _ start_cycles read => ∃ i, n ≤ i ∧ start_cycles = (env i).cycles ∧
      Visits (timeRead d) env (i + 1) d.start m read
  | .endCycle start => ∃ i j, n ≤ i ∧ SampledAt env i j start ∧ j < m
  | .endTime start end_cycles read => ∃ i j k, n ≤ i ∧ SampledAt env i j start ∧ j < k ∧
      end_cycles = (env k).cycles ∧ Visits (timeRead d) env (k + 1) d.start m read

variable {ref_freq ref_time_inv : BitVec 32} {env : Nat → Instant} {n m : Nat}

theorem freqSoFar_access {pc pc' : FreqPc d} (h : FreqSoFar env n m pc)
    (ha : clint_get_core_freq d ref_freq ref_time_inv (env m) pc = .inl pc') :
    FreqSoFar env n (m + 1) pc' := by
  unfold clint_get_core_freq at ha
  cases pc with
  | firstTime read =>
    have hle : n ≤ m + 1 := Nat.le_succ_of_le h
    cases hread : timeRead d (env m) read <;> simp only [hread] at ha <;> cases ha <;> exact hle
  | startCycle end_ =>
    cases ha
    exact ⟨m, h, rfl, .entry⟩
  -- the cycles of the first sample were read before its time
  | startTime end_ start_cycles read =>
    obtain ⟨i, hi, hcycles, hvisits⟩ := h
    cases hread : timeRead d (env m) read with
    | inl read' =>
      simp only [hread] at ha
      cases ha
      exact ⟨i, hi, hcycles, .access hvisits hread⟩
    | inr start =>
      have hle := hvisits.le
      simp only [hread] at ha
      split at ha
      · cases ha
        show n ≤ m + 1
        omega
      · cases ha
        exact ⟨i, m, hi, ⟨hcycles, read, hvisits, hread⟩, Nat.lt_succ_self m⟩
  | endCycle start =>
    cases ha
    obtain ⟨i, j, hi, hstart, hj⟩ := h
    exact ⟨i, j, m, hi, hstart, hj, rfl, .entry⟩
  -- a second sample that is too early is taken again
  | endTime start end_cycles read =>
    obtain ⟨i, j, k, hi, hstart, hk, hcycles, hvisits⟩ := h
    cases hread : timeRead d (env m) read with
    | inl read' =>
      simp only [hread] at ha
      cases ha
      exact ⟨i, j, k, hi, hstart, hk, hcycles, .access hvisits hread⟩
    | inr end_ =>
      have hle := hvisits.le
      simp only [hread] at ha
      split at ha
      · cases ha
        exact ⟨i, j, hi, hstart, by omega⟩
      · cases ha

/-- **What a measurement is**: two samples taken one after the other, the
    second of which ended the second loop. -/
theorem get_core_freq_samples {r : Measurement d}
    (h : Returns (clint_get_core_freq d ref_freq ref_time_inv) env n (.firstTime d.start) m r) :
    ∃ i j k, n ≤ i ∧ SampledAt env i j r.start ∧ j < k ∧ SampledAt env k m r.end_ ∧
      d.tooEarly r.start.mtime r.end_.mtime (ref_freq / ref_time_inv) = false := by
  obtain ⟨pc, hvisits, ha⟩ := h
  have hsofar : FreqSoFar env n m pc :=
    hvisits.invariant (show FreqSoFar env n n (.firstTime d.start) from Nat.le_refl n)
      (fun _ _ _ h ha => freqSoFar_access h ha)
  unfold clint_get_core_freq at ha
  -- the call can only return behind the second sample
  cases pc with
  | firstTime read =>
    cases hread : timeRead d (env m) read <;> simp only [hread] at ha <;> cases ha
  | startCycle end_ => cases ha
  | startTime end_ start_cycles read =>
    cases hread : timeRead d (env m) read with
    | inl read' => simp only [hread] at ha; cases ha
    | inr start =>
      simp only [hread] at ha
      split at ha <;> cases ha
  | endCycle start => cases ha
  | endTime start end_cycles read =>
    obtain ⟨i, j, k, hi, hstart, hk, hcycles, hread'⟩ := hsofar
    cases hread : timeRead d (env m) read with
    | inl read' => simp only [hread] at ha; cases ha
    | inr end_ =>
      simp only [hread] at ha
      split at ha
      · cases ha
      · rename_i hlate
        cases ha
        exact ⟨i, j, k, hi, hstart, hk, ⟨hcycles, read, hread', hread⟩, by simpa using hlate⟩

end call

/-! ## Section 2: The elapsed time

    The bound of the second loop and the divisor of `clint32` look at low
    words only.  The loop ends too early when the bound wraps around, and
    the divisor is off by a carry when one falls between the samples. -/

/-- The measurement is right about its own time: the ticks asked for have
    passed between its samples, and the divisor is their difference. -/
def TrueElapsed (num_ticks : BitVec 32) (r : Measurement .clint32) : Prop :=
  let elapsed := (ClintMtime.value r.end_.mtime).toNat - (ClintMtime.value r.start.mtime).toNat
  num_ticks.toNat ≤ elapsed ∧ r.ticks.toNat = elapsed ∧ r.ticks ≠ 0

/-- The low word does not wrap around when the ticks are added to it, and
    no carry leaves it between the two samples. -/
def NoCarry (num_ticks : BitVec 32) (start end_ : BitVec 64) : Prop :=
  (mtimeLow start).toNat + num_ticks.toNat < 2 ^ 32 ∧ mtimeHigh start = mtimeHigh end_

theorem one_le_num_ticks {ref_freq ref_time_inv : BitVec 32} (hpos : 1 ≤ ref_time_inv)
    (hle : ref_time_inv ≤ ref_freq) : 1 ≤ (ref_freq / ref_time_inv).toNat := by
  rw [BitVec.le_def] at hpos hle
  rw [BitVec.toNat_udiv]
  exact Nat.div_pos hle hpos

namespace Clint32

variable {start end_ : ClintMtime} {num_ticks : BitVec 32}

/-- The difference of the low words, taken in 64 bits. -/
theorem ticks_toNat :
    (ticks start end_).toNat =
      (2 ^ 64 - start.low.toNat + end_.low.toNat) % 2 ^ 64 := by
  have hstart := start.low.isLt
  have hend := end_.low.isLt
  unfold ticks
  rw [BitVec.toNat_sub, BitVec.toNat_setWidth, BitVec.toNat_setWidth,
    Nat.mod_eq_of_lt (a := start.low.toNat) (by omega),
    Nat.mod_eq_of_lt (a := end_.low.toNat) (by omega)]

/-- The second loop is left once the time has reached the bound, right or
    wrong. -/
theorem tooEarly_eq_false_iff :
    tooEarly start end_ num_ticks = false ↔
      start.high.toNat * 2 ^ 32 + (start.low.toNat + num_ticks.toNat) % 2 ^ 32 ≤
        end_.value.toNat := by
  have hbound : (ClintMtime.value ⟨start.low + num_ticks, start.high⟩).toNat =
      start.high.toNat * 2 ^ 32 + (start.low.toNat + num_ticks.toNat) % 2 ^ 32 := by
    rw [ClintMtime.value_toNat, BitVec.toNat_add]
  unfold tooEarly
  rw [← Bool.not_eq_true, less_than_iff, BitVec.lt_def, hbound, Nat.not_lt]

/-- The divisor is the elapsed time exactly when the samples share their
    high word. -/
theorem ticks_eq_elapsed_iff (hle : start.value.toNat ≤ end_.value.toNat)
    (hspan : end_.value.toNat < start.value.toNat + 2 ^ 32) :
    (ticks start end_).toNat = end_.value.toNat - start.value.toNat ↔
      start.high.toNat = end_.high.toNat := by
  have hstart := start.low.isLt
  have hend := end_.low.isLt
  rw [ticks_toNat]
  rw [ClintMtime.value_toNat, ClintMtime.value_toNat] at *
  omega

/-- **The two word tricks are right together**: once the second loop is
    left, the ticks have passed and the divisor counts them exactly when no
    carry is involved. -/
theorem elapsed_iff (hticks : 1 ≤ num_ticks.toNat) (hle : start.value.toNat ≤ end_.value.toNat)
    (hspan : end_.value.toNat < start.value.toNat + 2 ^ 32)
    (hlate : tooEarly start end_ num_ticks = false) :
    (num_ticks.toNat ≤ end_.value.toNat - start.value.toNat ∧
      (ticks start end_).toNat = end_.value.toNat - start.value.toNat ∧
      ticks start end_ ≠ 0) ↔ NoCarry num_ticks start.value end_.value := by
  have hlate := tooEarly_eq_false_iff.mp hlate
  have hzero : ticks start end_ ≠ 0 ↔ (ticks start end_).toNat ≠ 0 :=
    not_congr BitVec.toNat_inj.symm
  unfold NoCarry
  rw [hzero, ticks_eq_elapsed_iff hle hspan, ← BitVec.toNat_inj, mtimeHigh_toNat,
    mtimeHigh_toNat, mtimeLow_toNat]
  have hs := start.low.isLt
  have he := end_.low.isLt
  have hsv := start.value_toNat
  have hev := end_.value_toNat
  constructor
  · rintro ⟨hpassed, hsame, _⟩
    omega
  · rintro ⟨hwrap, hsame⟩
    -- one tick at least has passed, so the divisor is not zero
    have hdiv := (ticks_eq_elapsed_iff hle hspan).mpr (by omega)
    omega

end Clint32

/-- A sample of `clint32` is the counter at one instant. -/
theorem SampledAt.instant {env : Nat → Instant} {i j : Nat} {s : Sample .clint32}
    (hmono : NonDecreasing fun a => (env a).mtime) (h : SampledAt env i j s) :
    ∃ a, i < a ∧ a < j ∧ ClintMtime.value s.mtime = (env a).mtime := by
  have hret : Returns Clint32.clint_get_mtime (fun a => (env a).mtime) (i + 1) .high j s.mtime :=
    Returns.of_part h.2
  obtain ⟨a, _, hia, haj, _, hvalue⟩ := Clint32.get_mtime_instant hmono hret
  exact ⟨a, by omega, haj, hvalue⟩

/-- **When `clint_get_core_freq` of `clint32` measures the true time**: in
    every call during which the counter advances by less than `2 ^ 32`,
    the samples are the counter at two instants, and the ticks asked for
    have passed and the divisor is right exactly when the low word at the
    first instant does not wrap around under the addition of the ticks and
    no carry leaves it between the two instants. -/
theorem core_freq_elapsed_iff (ref_freq ref_time_inv : BitVec 32) (hpos : 1 ≤ ref_time_inv)
    (hle : ref_time_inv ≤ ref_freq) (env : Nat → Instant)
    (hmono : NonDecreasing fun i => (env i).mtime) (n m : Nat) (r : Measurement .clint32)
    (hret : Returns (clint_get_core_freq .clint32 ref_freq ref_time_inv) env n
      (.firstTime FreqDriver.clint32.start) m r)
    (hspan : (env m).mtime.toNat < (env n).mtime.toNat + 2 ^ 32) :
    ∃ a b, n < a ∧ a < b ∧ b < m ∧ ClintMtime.value r.start.mtime = (env a).mtime ∧
      ClintMtime.value r.end_.mtime = (env b).mtime ∧
      (TrueElapsed (ref_freq / ref_time_inv) r ↔
        NoCarry (ref_freq / ref_time_inv) (env a).mtime (env b).mtime) := by
  obtain ⟨i, j, k, hi, hstart, hk, hend, hlate⟩ := get_core_freq_samples hret
  obtain ⟨a, hia, haj, hstartValue⟩ := hstart.instant hmono
  obtain ⟨b, hkb, hbm, hendValue⟩ := hend.instant hmono
  refine ⟨a, b, by omega, by omega, hbm, hstartValue, hendValue, ?_⟩
  have hna : (env n).mtime.toNat ≤ (env a).mtime.toNat := hmono (by omega)
  have hab : (env a).mtime.toNat ≤ (env b).mtime.toNat := hmono (by omega)
  have hbm' : (env b).mtime.toNat ≤ (env m).mtime.toNat := hmono (by omega)
  have h := Clint32.elapsed_iff (one_le_num_ticks hpos hle)
    (by rw [hstartValue, hendValue]; exact hab)
    (by rw [hstartValue, hendValue]; omega) hlate
  rw [← hstartValue, ← hendValue]
  exact h

/-- An environment in which the timer goes from `base` on by one tick each
    access, for `k` accesses, and then stands. -/
def ticking (base k : Nat) (cycles : Nat → Nat) (i : Nat) : Instant where
  mtime    := BitVec.ofNat 64 (base + min i k)
  cycles   := cycles i
  lowFirst := false

theorem nonDecreasing_ticking {base k : Nat} (cycles : Nat → Nat) (h : base + k < 2 ^ 64) :
    NonDecreasing fun i => (ticking base k cycles i).mtime := by
  intro i j hij
  show (BitVec.ofNat 64 (base + min i k)).toNat ≤ (BitVec.ofNat 64 (base + min j k)).toNat
  rw [BitVec.toNat_ofNat, BitVec.toNat_ofNat, Nat.mod_eq_of_lt (by omega),
    Nat.mod_eq_of_lt (by omega)]
  omega

/-- A measurement over four ticks in the middle of a range of the low
    word. -/
theorem four_ticks_elapsed :
    ∃ a b, 0 < a ∧ a < b ∧ b < 10 ∧ ∃ r : Measurement .clint32,
      Returns (clint_get_core_freq .clint32 3 1) (ticking 100 20 id) 0
        (.firstTime FreqDriver.clint32.start) 10 r ∧
      (TrueElapsed (3 / 1) r ↔
        NoCarry (3 / 1) (ticking 100 20 id a).mtime (ticking 100 20 id b).mtime) := by
  have hret : Returns (clint_get_core_freq .clint32 3 1) (ticking 100 20 id) 0
      (.firstTime FreqDriver.clint32.start) 10
      { start := { cycles := 3, mtime := ({ low := 105, high := 0 } : ClintMtime) },
        end_ := { cycles := 7, mtime := ({ low := 109, high := 0 } : ClintMtime) } } :=
    returns_of_run 12 rfl
  obtain ⟨a, b, ha, hab, hb, _, _, hiff⟩ := core_freq_elapsed_iff 3 1 (by decide) (by decide)
    (ticking 100 20 id) (nonDecreasing_ticking id (by decide)) 0 10 _ hret (by decide)
  exact ⟨a, b, ha, hab, hb, _, hret, hiff⟩

/-- The second loop is left at once, with a divisor of zero, when the
    start time ends the range of the low word: the bound has wrapped
    around. -/
theorem core_freq_divides_by_zero :
    ¬ ∀ (ref_freq ref_time_inv : BitVec 32) (env : Nat → Instant) (n m : Nat)
        (r : Measurement .clint32), 1 ≤ ref_time_inv → ref_time_inv ≤ ref_freq →
        NonDecreasing (fun i => (env i).mtime) →
        Returns (clint_get_core_freq .clint32 ref_freq ref_time_inv) env n
          (.firstTime FreqDriver.clint32.start) m r →
        (env m).mtime.toNat < (env n).mtime.toNat + 2 ^ 32 →
        TrueElapsed (ref_freq / ref_time_inv) r := by
  intro hall
  have hret : Returns (clint_get_core_freq .clint32 1 1) (ticking 0xfffffffa 5 id) 0
      (.firstTime FreqDriver.clint32.start) 10
      { start := { cycles := 3, mtime := ({ low := 0xffffffff, high := 0 } : ClintMtime) },
        end_ := { cycles := 7, mtime := ({ low := 0xffffffff, high := 0 } : ClintMtime) } } :=
    returns_of_run 12 rfl
  have helapsed := hall 1 1 _ 0 10 _ (by decide) (by decide)
    (nonDecreasing_ticking id (by decide)) hret (by decide)
  exact helapsed.2.2 rfl

/-! ## Section 3: The estimate across a wrap of `mcycle`

    When the 32-bit counter wraps around between its two reads, the
    difference taken in 64 bits is short of `2 ^ 32`, modulo `2 ^ 64`, and
    the product short of `2 ^ 32 * ref_freq`. -/

/-- The product is the true one as long as `mcycle` does not wrap around;
    else it is `2 ^ 32 * (2 ^ 32 - ref_freq)` too large. -/
theorem duration_toNat {d : FreqDriver} {r : Measurement d} {ref_freq : BitVec 32} {D : Nat}
    (hD : D < 2 ^ 32) (hend : r.end_.cycles = r.start.cycles + D) (hpos : 0 < ref_freq.toNat) :
    (r.duration ref_freq).toNat =
      if r.start.mcycle.toNat + D < 2 ^ 32 then D * ref_freq.toNat
      else D * ref_freq.toNat + 2 ^ 32 * (2 ^ 32 - ref_freq.toNat) := by
  have href := ref_freq.isLt
  have hstart : r.start.mcycle.toNat = r.start.cycles % 2 ^ 32 := BitVec.toNat_ofNat ..
  have hendCycle : r.end_.mcycle.toNat = (r.start.cycles + D) % 2 ^ 32 := by
    rw [← hend]
    exact BitVec.toNat_ofNat ..
  have hprod : D * ref_freq.toNat ≤ (2 ^ 32 - 1) * ref_freq.toNat :=
    Nat.mul_le_mul_right _ (by omega)
  -- the difference in 64 bits
  have hdiff : (r.end_.mcycle.setWidth 64 - r.start.mcycle.setWidth 64).toNat =
      if r.start.mcycle.toNat + D < 2 ^ 32 then D else D + (2 ^ 64 - 2 ^ 32) := by
    rw [BitVec.toNat_sub, BitVec.toNat_setWidth, BitVec.toNat_setWidth, hendCycle, hstart]
    split <;> omega
  unfold Measurement.duration
  rw [BitVec.toNat_mul, hdiff, BitVec.toNat_setWidth, Nat.mod_eq_of_lt (a := ref_freq.toNat)
    (by omega)]
  by_cases hwrap : r.start.mcycle.toNat + D < 2 ^ 32
  · rw [if_pos hwrap, if_pos hwrap]
    exact Nat.mod_eq_of_lt (by omega)
  · rw [if_neg hwrap, if_neg hwrap]
    have hsplit : (D + (2 ^ 64 - 2 ^ 32)) * ref_freq.toNat =
        D * ref_freq.toNat + 2 ^ 32 * (2 ^ 32 - ref_freq.toNat) +
          2 ^ 64 * (ref_freq.toNat - 1) := by
      rw [Nat.add_mul]
      omega
    rw [hsplit, Nat.add_mul_mod_self_left]
    exact Nat.mod_eq_of_lt (by omega)

/-- A multiple of `2 ^ 32` added before the division is invisible in the
    low word of the quotient exactly when the divisor divides it. -/
theorem quotient_word_iff {x A T : Nat} (hT : 0 < T) (hT' : T < 2 ^ 32)
    (hfits : x / T < 2 ^ 32) :
    (x + 2 ^ 32 * A) / T % 2 ^ 32 = x / T ↔ T ∣ A := by
  constructor
  · intro h
    have hx := Nat.div_add_mod x T
    have hy := Nat.div_add_mod (x + 2 ^ 32 * A) T
    have hr := Nat.mod_lt x hT
    have hr' := Nat.mod_lt (x + 2 ^ 32 * A) hT
    -- the quotients differ by `2 ^ 32 * j`, the remainders by less than `2 ^ 32`
    obtain ⟨j, hj⟩ : ∃ j, (x + 2 ^ 32 * A) / T = x / T + 2 ^ 32 * j :=
      ⟨(x + 2 ^ 32 * A) / T / 2 ^ 32, by omega⟩
    rw [hj, Nat.mul_add, Nat.mul_left_comm] at hy
    exact ⟨j, by omega⟩
  · rintro ⟨j, rfl⟩
    rw [Nat.mul_left_comm, Nat.add_mul_div_left _ _ hT, Nat.add_mul_mod_self_left]
    exact Nat.mod_eq_of_lt hfits

/-- The samples are `T` ticks apart, without a carry out of the low word. -/
def TicksApart {d : FreqDriver} (r : Measurement d) (T : Nat) : Prop :=
  (d.words r.end_.mtime).high = (d.words r.start.mtime).high ∧
    (d.words r.end_.mtime).low.toNat = (d.words r.start.mtime).low.toNat + T

theorem TicksApart.lt {d : FreqDriver} {r : Measurement d} {T : Nat} (h : TicksApart r T) :
    T < 2 ^ 32 := by
  have := (d.words r.end_.mtime).low.isLt
  have := h.2
  omega

theorem Clint32.ticks_of_apart {start end_ : ClintMtime} {T : Nat}
    (hlow : end_.low.toNat = start.low.toNat + T) : (ticks start end_).toNat = T := by
  have := start.low.isLt
  have := end_.low.isLt
  rw [ticks_toNat]
  omega

theorem Clint64.ticks_of_apart {start end_ : BitVec 64} {T : Nat}
    (hhigh : (clint64.words end_).high = (clint64.words start).high)
    (hlow : (clint64.words end_).low.toNat = (clint64.words start).low.toNat + T) :
    (ticks start end_).toNat = T := by
  have hhighNat : end_.toNat / 2 ^ 32 % 2 ^ 32 = start.toNat / 2 ^ 32 % 2 ^ 32 := by
    have := congrArg BitVec.toNat hhigh
    simpa only [clint64, BitVec.toNat_setWidth, BitVec.toNat_ushiftRight,
      Nat.shiftRight_eq_div_pow] using this
  have hlowNat : end_.toNat % 2 ^ 32 = start.toNat % 2 ^ 32 + T := by
    simpa only [clint64, BitVec.toNat_setWidth] using hlow
  have := start.isLt
  have := end_.isLt
  unfold ticks
  rw [BitVec.toNat_sub]
  omega

/-- Both divisors count the ticks of samples that share their high word. -/
theorem ticks_toNat_of_apart {d : FreqDriver}
    (hd : d = FreqDriver.clint32 ∨ d = FreqDriver.clint64) {r : Measurement d} {T : Nat}
    (h : TicksApart r T) : r.ticks.toNat = T := by
  rcases hd with rfl | rfl
  · exact Clint32.ticks_of_apart h.2
  · exact Clint64.ticks_of_apart h.1 h.2

/-- What is returned for samples that are `T` ticks apart. -/
theorem freq_eq_some_iff {d : FreqDriver} {r : Measurement d} {ref_freq v : BitVec 32} {T : Nat}
    (hT : 1 ≤ T) (hticks : r.ticks.toNat = T) :
    r.freq ref_freq = some v ↔ (r.duration ref_freq).toNat / T % 2 ^ 32 = v.toNat := by
  have hne : r.ticks ≠ 0 := by
    intro h0
    rw [h0] at hticks
    have hzero : (0 : BitVec 64).toNat = 0 := rfl
    omega
  unfold Measurement.freq
  rw [if_neg hne, Option.some_inj, ← BitVec.toNat_inj, BitVec.toNat_setWidth,
    BitVec.toNat_udiv, hticks]

/-- **When the estimate is right**: in both drivers, for samples that are
    `D` cycles and `T` ticks apart, the call returns the quotient exactly
    when the 32-bit counter does not wrap around between its two reads,
    apart from the frequencies for which the error vanishes. -/
theorem core_freq_exact_iff (d : FreqDriver)
    (hd : d = FreqDriver.clint32 ∨ d = FreqDriver.clint64) (ref_freq ref_time_inv : BitVec 32)
    (env : Nat → Instant) (n m : Nat) (r : Measurement d)
    (hret : Returns (clint_get_core_freq d ref_freq ref_time_inv) env n (.firstTime d.start) m r) :
    ∃ i j k, n ≤ i ∧ SampledAt env i j r.start ∧ j < k ∧ SampledAt env k m r.end_ ∧
      ∀ D T, (env k).cycles = (env i).cycles + D → D < 2 ^ 32 → 1 ≤ T → TicksApart r T →
        D * ref_freq.toNat / T < 2 ^ 32 →
        (r.freq ref_freq = some (BitVec.ofNat 32 (D * ref_freq.toNat / T)) ↔
          (get_mcycle (env i).cycles).toNat + D < 2 ^ 32 ∨ ref_freq = 0 ∨
            T ∣ 2 ^ 32 - ref_freq.toNat) := by
  obtain ⟨i, j, k, hi, hstart, hk, hend, _⟩ := get_core_freq_samples hret
  refine ⟨i, j, k, hi, hstart, hk, hend, ?_⟩
  intro D T hcycles hD hT hapart hfits
  have hcycles' : r.end_.cycles = r.start.cycles + D := by
    rw [hend.1, hstart.1]
    exact hcycles
  have hmcycle : r.start.mcycle = get_mcycle (env i).cycles := by
    unfold Sample.mcycle
    rw [hstart.1]
  rw [freq_eq_some_iff hT (ticks_toNat_of_apart hd hapart), BitVec.toNat_ofNat,
    Nat.mod_eq_of_lt hfits, ← hmcycle]
  by_cases href : ref_freq = 0
  · -- a zero frequency is estimated as zero
    subst href
    have hzero : (r.duration 0).toNat = 0 := congrArg BitVec.toNat BitVec.mul_zero
    have hzero' : (0 : BitVec 32).toNat = 0 := rfl
    rw [hzero, hzero', Nat.mul_zero, Nat.zero_div, Nat.zero_mod]
    exact iff_of_true rfl (.inr (.inl rfl))
  · have hpos : 0 < ref_freq.toNat := by
      have := mt (BitVec.toNat_inj (x := ref_freq) (y := 0)).mp href
      exact Nat.pos_of_ne_zero this
    rw [duration_toNat hD hcycles' hpos]
    -- a wrap adds the quotient of 2^32, which the word may hide
    by_cases hwrap : r.start.mcycle.toNat + D < 2 ^ 32
    · rw [if_pos hwrap, Nat.mod_eq_of_lt hfits]
      exact iff_of_true rfl (.inl hwrap)
    · rw [if_neg hwrap, quotient_word_iff (by omega) hapart.lt hfits, or_iff_right hwrap,
        or_iff_right href]

/-- A measurement with `clint64` far from a wrap of the counter: three
    cycles in three ticks at a reference of three. -/
theorem three_ticks_exact :
    ∃ r : Measurement .clint64,
      Returns (clint_get_core_freq .clint64 3 1) (ticking 100 20 id) 0
        (.firstTime FreqDriver.clint64.start) 7 r ∧ r.freq 3 = some 3 := by
  have hret : Returns (clint_get_core_freq .clint64 3 1) (ticking 100 20 id) 0
      (.firstTime FreqDriver.clint64.start) 7
      { start := { cycles := 2, mtime := (104 : BitVec 64) },
        end_ := { cycles := 5, mtime := (107 : BitVec 64) } } := returns_of_run 12 rfl
  obtain ⟨i, _, k, _, hstart, _, hend, hexact⟩ :=
    core_freq_exact_iff .clint64 (.inr rfl) 3 1 (ticking 100 20 id) 0 7 _ hret
  refine ⟨_, hret, (hexact 3 3 ?_ (by decide) (by decide) ⟨rfl, rfl⟩ (by decide)).mpr ?_⟩
  · rw [← hstart.1, ← hend.1]
  · rw [← hstart.1]
    exact .inl (by decide)

/-- The estimate of a driver is right in every call. -/
def EstimateRight (d : FreqDriver) : Prop :=
  ∀ (ref_freq ref_time_inv : BitVec 32) (env : Nat → Instant) (n m : Nat) (r : Measurement d),
    Returns (clint_get_core_freq d ref_freq ref_time_inv) env n (.firstTime d.start) m r →
    ∀ D T, r.end_.cycles = r.start.cycles + D → D < 2 ^ 32 → 1 ≤ T → TicksApart r T →
      D * ref_freq.toNat / T < 2 ^ 32 →
      r.freq ref_freq = some (BitVec.ofNat 32 (D * ref_freq.toNat / T))

/-- A core that counts one cycle each access, and whose counter wraps
    around during the call. -/
def wrappingCycles (i : Nat) : Nat := 2 ^ 32 - 4 + i

theorem core_freq_off_by_wrap :
    ¬ EstimateRight .clint32 ∧ ¬ EstimateRight .clint64 := by
  constructor
  · intro hall
    have hret : Returns (clint_get_core_freq .clint32 3 1) (ticking 100 20 wrappingCycles) 0
        (.firstTime FreqDriver.clint32.start) 10
        { start := { cycles := 2 ^ 32 - 1, mtime := ({ low := 105, high := 0 } : ClintMtime) },
          end_ := { cycles := 2 ^ 32 + 3, mtime := ({ low := 109, high := 0 } : ClintMtime) } } :=
      returns_of_run 12 rfl
    exact absurd (hall 3 1 _ 0 10 _ hret 4 4 rfl (by decide) (by decide) ⟨rfl, rfl⟩ (by decide))
      (by decide)
  · intro hall
    have hret : Returns (clint_get_core_freq .clint64 3 1) (ticking 100 20 wrappingCycles) 0
        (.firstTime FreqDriver.clint64.start) 7
        { start := { cycles := 2 ^ 32 - 2, mtime := (104 : BitVec 64) },
          end_ := { cycles := 2 ^ 32 + 1, mtime := (107 : BitVec 64) } } := returns_of_run 12 rfl
    exact absurd (hall 3 1 _ 0 7 _ hret 3 3 rfl (by decide) (by decide) ⟨rfl, rfl⟩ (by decide))
      (by decide)

end Clint
