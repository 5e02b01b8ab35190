import Mathlib.Algebra.Ring.Nat
import ChimeraSdk.Framework.Rounding
import ChimeraSdk.Host.Fll

/-! # Accuracy of the FLL Parameters

    The header of the calculator promises the largest power-of-two output
    divider that keeps the oscillator below 3.3 GHz, and the multiplier
    nearest to the target.  The multiplier is as promised, and no 32-bit
    operation on the way to it wraps around.  The divider is not: the
    bound on it is rounded down and then taken as a strict one. -/

namespace Fll

open Rounding

/-! ## Section 1: When the calculator succeeds -/

/-- A call succeeds exactly when the doubled target, which has lost its
    top bit, leaves room for a bound of two. -/
theorem calculate_fll_params_isSome (target_freq rtc_freq : BitVec 32) :
    (calculate_fll_params target_freq rtc_freq).isSome = true ↔
      0 < rtc_freq.toNat ∧ 0 < target_freq.toNat % 2 ^ 31 ∧ 1 < (limit target_freq).toNat := by
  constructor
  · intro h
    obtain ⟨p, hp⟩ := Option.isSome_iff_exists.mp h
    obtain ⟨hrtc, hdenom, hl, _⟩ := calculate_fll_params_eq_some hp
    rw [double_toNat] at hdenom
    exact ⟨hrtc, by omega, hl⟩
  · intro h
    obtain ⟨hrtc, hpos, hl⟩ := h
    have hzero : (0 : BitVec 32).toNat = 0 := rfl
    -- none of the three refusals applies
    have hfreqs : ¬ (target_freq = 0 ∨ rtc_freq = 0) := by
      intro h0
      by_cases htarget : target_freq = 0
      · rw [htarget, hzero] at hpos
        omega
      · rw [h0.resolve_left htarget, hzero] at hrtc
        omega
    have hdenom : ¬ 2 * target_freq = 0 := by
      intro h0
      have hdouble := double_toNat target_freq
      rw [h0, hzero] at hdouble
      omega
    have hlimit : ¬ limit target_freq ≤ 1 := by
      rw [BitVec.not_le, BitVec.lt_def]
      exact hl
    unfold calculate_fll_params
    rw [if_neg hfreqs, if_neg hdenom, if_neg hlimit]
    rfl

/-! ## Section 2: The divider -/

/-- The output divider that the field `div` stands for. -/
def FllParams.dout (p : FllParams) : Nat := 2 ^ (p.div.toNat - 1)

/-- The output divider `dout` keeps twice the target below 3.3 GHz. -/
def BelowCeiling (target_freq : BitVec 32) (dout : Nat) : Prop :=
  2 * target_freq.toNat * dout < 3300000000

/-- The calculator finds the largest power of two below the ceiling, and
    fails only if there is none. -/
structure LargestDivider (target_freq rtc_freq : BitVec 32) : Prop where
  returns : (calculate_fll_params target_freq rtc_freq).isSome = true ↔
    ∃ k, BelowCeiling target_freq (2 ^ k)
  below : ∀ p, calculate_fll_params target_freq rtc_freq = some p →
    BelowCeiling target_freq p.dout
  largest : ∀ p, calculate_fll_params target_freq rtc_freq = some p →
    ∀ k, BelowCeiling target_freq (2 ^ k) → 2 ^ k ≤ p.dout

/-- The targets for which the rounded, strict bound on the divider is as
    good as the ceiling: the bound is exact, or no power of two is equal
    to it. -/
def BoundExact (target_freq : BitVec 32) : Prop :=
  2 * target_freq.toNat ∣ 3300000000 ∨ ∀ k, 3300000000 / (2 * target_freq.toNat) ≠ 2 ^ k

section Divider

variable {target_freq rtc_freq : BitVec 32} {p : FllParams}

theorem dout_eq (h : calculate_fll_params target_freq rtc_freq = some p) :
    p.dout = 2 ^ (exponent (limit target_freq)).toNat := by
  obtain ⟨_, _, _, hdiv, _⟩ := calculate_fll_params_eq_some h
  unfold FllParams.dout
  rw [hdiv, Nat.add_sub_cancel]

/-- Below 2^31 Hz the doubling is exact. -/
theorem limit_eq (hmax : target_freq.toNat ≤ 2 ^ 31 - 1) :
    (limit target_freq).toNat = 3300000000 / (2 * target_freq.toNat) := by
  rw [limit_toNat, Nat.mod_eq_of_lt (by omega)]

/-- Where the bound is exact, it allows the same powers of two as the
    ceiling. -/
theorem BoundExact.below_iff (hmin : 1 ≤ target_freq.toNat) (hmax : target_freq.toNat ≤ 2 ^ 31 - 1)
    (hexact : BoundExact target_freq) (k : Nat) :
    BelowCeiling target_freq (2 ^ k) ↔ 2 ^ k < (limit target_freq).toNat := by
  unfold BelowCeiling
  rw [limit_eq hmax]
  by_cases hdvd : 2 * target_freq.toNat ∣ 3300000000
  · rw [Nat.lt_div_iff_mul_lt' hdvd]
  · have hne := hexact.resolve_left hdvd k
    rw [mul_lt_iff_le_div (by omega) hdvd]
    omega

/-- A power of two that is the rounded bound is below the ceiling, and the
    calculator does not choose it. -/
theorem LargestDivider.boundExact (hmin : 1 ≤ target_freq.toNat)
    (hmax : target_freq.toNat ≤ 2 ^ 31 - 1) (h : LargestDivider target_freq rtc_freq) :
    BoundExact target_freq := by
  by_cases hdvd : 2 * target_freq.toNat ∣ 3300000000
  · exact .inl hdvd
  · refine .inr fun k hk => ?_
    have hbelow : BelowCeiling target_freq (2 ^ k) :=
      (mul_lt_iff_le_div (by omega) hdvd).mpr (by omega)
    -- the call succeeds, so the bound is more than one
    have hsome := h.returns.mpr ⟨k, hbelow⟩
    obtain ⟨p, hp⟩ := Option.isSome_iff_exists.mp hsome
    have hl := (calculate_fll_params_isSome _ _).mp hsome |>.2.2
    have hlargest := h.largest p hp k hbelow
    -- and its divider is less than the bound, which is this power of two
    have hspec := (exponent_spec hl).1
    rw [dout_eq hp] at hlargest
    rw [limit_eq hmax, hk] at hspec
    omega

theorem BoundExact.largestDivider (hrtc : 1 ≤ rtc_freq.toNat) (hmin : 1 ≤ target_freq.toNat)
    (hmax : target_freq.toNat ≤ 2 ^ 31 - 1) (hexact : BoundExact target_freq) :
    LargestDivider target_freq rtc_freq := by
  have hbelow := hexact.below_iff hmin hmax
  refine ⟨?_, ?_, ?_⟩
  · rw [calculate_fll_params_isSome]
    constructor
    · intro h
      exact ⟨0, (hbelow 0).mpr h.2.2⟩
    · intro h
      obtain ⟨k, hk⟩ := h
      have hlt := (hbelow k).mp hk
      have hpos : 0 < 2 ^ k := Nat.two_pow_pos k
      exact ⟨hrtc, by omega, by omega⟩
  · intro p hp
    obtain ⟨_, _, hl, _⟩ := calculate_fll_params_eq_some hp
    rw [dout_eq hp]
    exact (hbelow _).mpr (exponent_spec hl).1
  · -- a larger divider would need an exponent beyond the largest
    intro p hp k hk
    obtain ⟨_, _, hl, _⟩ := calculate_fll_params_eq_some hp
    have hlt := Nat.lt_of_lt_of_le ((hbelow k).mp hk) (exponent_spec hl).2
    have hle := (Nat.pow_lt_pow_iff_right (by omega : 1 < 2)).mp hlt
    rw [dout_eq hp]
    exact Nat.pow_le_pow_right (by omega) (by omega)

end Divider

/-- **The output divider**: the calculator finds the largest power of two
    below the ceiling exactly for the targets whose bound is exact. -/
theorem fll_divider_largest_iff (target_freq rtc_freq : BitVec 32) (hrtc : 1 ≤ rtc_freq.toNat)
    (hmin : 1 ≤ target_freq.toNat) (hmax : target_freq.toNat ≤ 2 ^ 31 - 1) :
    LargestDivider target_freq rtc_freq ↔ BoundExact target_freq := by
  constructor
  · exact LargestDivider.boundExact hmin hmax
  · exact BoundExact.largestDivider hrtc hmin hmax

/-- 3.3 GHz is a multiple of twice 550 MHz. -/
theorem fll_divider_550MHz : LargestDivider 550000000 32768 :=
  (fll_divider_largest_iff 550000000 32768 (by decide) (by decide) (by decide)).mpr
    (.inl (by decide))

/-- For 1 GHz the bound is rounded from 1.65 down to one, and the divider
    one, with an oscillator at 2 GHz, is refused. -/
theorem fll_divider_1GHz_refused :
    ¬ ∀ target_freq rtc_freq : BitVec 32, 1 ≤ rtc_freq.toNat → 1 ≤ target_freq.toNat →
        target_freq.toNat ≤ 2 ^ 31 - 1 → LargestDivider target_freq rtc_freq := by
  intro hall
  have hnone : calculate_fll_params 1000000000 32768 = none := by decide
  have hsome := (hall 1000000000 32768 (by decide) (by decide) (by decide)).returns.mpr
    ⟨0, by unfold BelowCeiling; decide⟩
  rw [hnone] at hsome
  exact absurd hsome (by decide)

/-! ## Section 3: The multiplier -/

/-- Nothing wraps around, and no other positive multiplier comes closer. -/
structure NearestMultiplier (target_freq rtc_freq : BitVec 32) (p : FllParams) : Prop where
  product : target_freq.toNat * p.dout ≤ 2 ^ 32 - 1
  sum : target_freq.toNat * p.dout + rtc_freq.toNat / 2 ≤ 2 ^ 32 - 1
  pos : 1 ≤ p.mult.toNat
  half : 2 * error (target_freq.toNat * p.dout) rtc_freq.toNat p.mult.toNat ≤ rtc_freq.toNat ∨
    p.mult.toNat = 1 ∧ target_freq.toNat * p.dout < (rtc_freq.toNat + 1) / 2
  closest : ∀ m, 1 ≤ m → error (target_freq.toNat * p.dout) rtc_freq.toNat p.mult.toNat ≤
    error (target_freq.toNat * p.dout) rtc_freq.toNat m

section Multiplier

variable {target_freq rtc_freq : BitVec 32} {p : FllParams}

/-- The chosen divider keeps twice the product below 3.3 GHz. -/
theorem product_lt (hmax : target_freq.toNat ≤ 2 ^ 31 - 1)
    (h : calculate_fll_params target_freq rtc_freq = some p) :
    2 * (target_freq.toNat * p.dout) < 3300000000 := by
  obtain ⟨_, hdenom, hl, _⟩ := calculate_fll_params_eq_some h
  have hlt := (exponent_spec hl).1
  rw [double_toNat] at hdenom
  rw [limit_eq hmax] at hlt
  rw [dout_eq h]
  calc 2 * (target_freq.toNat * 2 ^ (exponent (limit target_freq)).toNat)
      = 2 ^ (exponent (limit target_freq)).toNat * (2 * target_freq.toNat) := by
        rw [← Nat.mul_assoc, Nat.mul_comm]
    _ < 3300000000 / (2 * target_freq.toNat) * (2 * target_freq.toNat) :=
        Nat.mul_lt_mul_of_pos_right hlt (by omega)
    _ ≤ 3300000000 := Nat.div_mul_le_self _ _

/-- The multiplier is the rounded ratio, or one if that is zero. -/
theorem mult_eq_nearest (hmax : target_freq.toNat ≤ 2 ^ 31 - 1)
    (h : calculate_fll_params target_freq rtc_freq = some p) :
    p.mult.toNat = max 1 (nearest (target_freq.toNat * p.dout) rtc_freq.toNat) := by
  have hlt := product_lt hmax h
  have hrtc := rtc_freq.isLt
  obtain ⟨_, _, _, _, hmult⟩ := calculate_fll_params_eq_some h
  unfold numerator at hmult
  rw [← dout_eq h, Nat.mod_eq_of_lt (by omega), Nat.mod_eq_of_lt (by omega)] at hmult
  exact hmult

end Multiplier

/-- **The multiplier**: whatever the calculator returns for a target below
    2^31 Hz, its multiplier is the best one for its divider. -/
theorem fll_multiplier_nearest (target_freq rtc_freq : BitVec 32) (p : FllParams)
    (hmax : target_freq.toNat ≤ 2 ^ 31 - 1)
    (h : calculate_fll_params target_freq rtc_freq = some p) :
    NearestMultiplier target_freq rtc_freq p := by
  have hrtc : 0 < rtc_freq.toNat := (calculate_fll_params_eq_some h).1
  have hlt := rtc_freq.isLt
  have hprod := product_lt hmax h
  have hmult := mult_eq_nearest hmax h
  refine ⟨by omega, by omega, by omega, ?_, ?_⟩
  · by_cases hzero : nearest (target_freq.toNat * p.dout) rtc_freq.toNat = 0
    · exact .inr ⟨by omega, (nearest_eq_zero_iff hrtc).mp hzero⟩
    · rw [hmult, Nat.max_eq_right (by omega)]
      exact .inl (error_nearest_le hrtc)
  · intro m hm
    by_cases hzero : nearest (target_freq.toNat * p.dout) rtc_freq.toNat = 0
    · -- the ratio rounds to zero, so the target is below the reference
      have hsmall := (nearest_eq_zero_iff hrtc).mp hzero
      rw [hmult, hzero, Nat.max_eq_left (by omega)]
      exact error_one_le (by omega) hm
    · rw [hmult, Nat.max_eq_right (by omega)]
      exact error_le_of_half (error_nearest_le hrtc) m

/-- 200 MHz from a 32 kHz reference. -/
theorem fll_multiplier_200MHz : NearestMultiplier 200000000 32768 { mult := 24414, div := 3 } :=
  fll_multiplier_nearest 200000000 32768 { mult := 24414, div := 3 } (by decide) (by decide)

end Fll
