import Mathlib.Data.Nat.Log
import Mathlib.Algebra.Ring.Nat

/-! # The Frequency-locked Loops

    `calculate_fll_params` turns a target frequency into a multiplier and
    a divider; `setFllFreq` packs both into the register CFG1, which has
    16 bits for the multiplier and four for the divider.  The calculator
    bounds neither of its results, and the packer masks neither of its
    arguments. -/

namespace Fll

/-! ## Section 1: The calculator -/

/-- The results of `calculate_fll_params`. -/
structure FllParams where
  mult : BitVec 32
  div  : BitVec 32
  deriving DecidableEq, Repr

def FMAX : BitVec 32 := 3300000000

/-- The strict bound on the output divider. -/
def limit (target_freq : BitVec 32) : BitVec 32 := FMAX / (2 * target_freq)

/-- `none` is the error return `-1`.  All arithmetic is in `uint32_t`. -/
def calculate_fll_params (target_freq rtc_freq : BitVec 32) : Option FllParams :=
  if target_freq = 0 ∨ rtc_freq = 0 then none
  else if 2 * target_freq = 0 then none
  else if limit target_freq ≤ 1 then none
  else
    let below := limit target_freq - 1
    let e := 31 - below.clz
    let dout := 1#32 <<< e.toNat
    let num := target_freq * dout
    let m := (num + rtc_freq / 2) / rtc_freq
    some { mult := if m = 0 then 1 else m, div := e + 1 }

example : calculate_fll_params 200000000 32768 = some { mult := 24414, div := 3 } := by decide

/-! ## Section 2: The packer -/

/-- The registers of one FLL. -/
structure FllRegs where
  status     : BitVec 32
  conf1      : BitVec 32
  conf2      : BitVec 32
  integrator : BitVec 32
  deriving DecidableEq, Repr

def initFll (fll : FllRegs) : FllRegs :=
  { fll with conf1 := (0xC958#32 <<< 16) ||| (fll.conf1 &&& 0x0000FFFF#32) }

def setFllFreq (fll : FllRegs) (mult div : BitVec 32) : FllRegs :=
  { fll with conf1 := (fll.conf1 &&& 0xC3FF0000#32) ||| (mult ||| (div <<< 26)) }

/-- CFG1 holds the parameters in their fields, and every other bit is as
    `initFll` set it. -/
structure Packed (fll : FllRegs) (p : FllParams) : Prop where
  mult : ((setFllFreq (initFll fll) p.mult p.div).conf1.extractLsb' 0 16).toNat = p.mult.toNat
  div : ((setFllFreq (initFll fll) p.mult p.div).conf1.extractLsb' 26 4).toNat = p.div.toNat
  others : (setFllFreq (initFll fll) p.mult p.div).conf1 &&& 0xC3FF0000#32 =
    (initFll fll).conf1 &&& 0xC3FF0000#32

/-- What `initFll` leaves in the bits `setFllFreq` keeps. -/
def kept : BitVec 32 := 0xC1580000

theorem initFll_kept (fll : FllRegs) : (initFll fll).conf1 &&& 0xC3FF0000#32 = kept := by
  show (0xC9580000#32 ||| (fll.conf1 &&& 0x0000FFFF#32)) &&& 0xC3FF0000#32 = kept
  have hclear : 0x0000FFFF#32 &&& 0xC3FF0000#32 = 0#32 := by decide
  rw [BitVec.and_or_distrib_right, BitVec.and_assoc, hclear, BitVec.and_zero]
  decide

theorem conf1_eq (fll : FllRegs) (mult div : BitVec 32) :
    (setFllFreq (initFll fll) mult div).conf1 = kept ||| (mult ||| (div <<< 26)) := by
  show ((initFll fll).conf1 &&& 0xC3FF0000#32) ||| (mult ||| (div <<< 26)) = _
  rw [initFll_kept]

/-! ### Bits of the fields -/

theorem kept_mult_clear : ∀ i : Fin 16, kept.getLsbD i = false := by decide

theorem kept_div_clear : ∀ i : Fin 4, kept.getLsbD (26 + i) = false := by decide

theorem mask_mult_clear : ∀ i : Fin 16, (0xC3FF0000#32).getLsbD i = false := by decide

theorem mask_div_clear : ∀ i : Fin 4, (0xC3FF0000#32).getLsbD (26 + i) = false := by decide

/-- A number has no bits from its bound on. -/
theorem getLsbD_eq_false_of_lt {x : BitVec 32} {k i : Nat} (hx : x.toNat < 2 ^ k) (hi : k ≤ i) :
    x.getLsbD i = false :=
  Nat.testBit_lt_two_pow (Nat.lt_of_lt_of_le hx (Nat.pow_le_pow_right (by omega) hi))

variable {mult div : BitVec 32}

/-- The field of the multiplier gets its low 16 bits. -/
theorem field_mult : (kept ||| (mult ||| (div <<< 26))).extractLsb' 0 16 = mult.setWidth 16 := by
  ext i hi
  have hkept := kept_mult_clear ⟨i, hi⟩
  have hshift : i < 26 := by omega
  simp_all

/-- The field of the divider gets its low four bits, if the multiplier
    leaves it alone. -/
theorem field_div (hmult : mult.toNat < 2 ^ 16) :
    (kept ||| (mult ||| (div <<< 26))).extractLsb' 26 4 = div.setWidth 4 := by
  ext i hi
  have hkept := kept_div_clear ⟨i, hi⟩
  have hclear : mult.getLsbD (26 + i) = false := getLsbD_eq_false_of_lt hmult (by omega)
  have hin : 26 + i < 32 := by omega
  have hout : ¬ 26 + i < 26 := by omega
  simp only [BitVec.getElem_extractLsb', BitVec.getLsbD_or, BitVec.getLsbD_shiftLeft, hkept, hclear,
    hin, hout, BitVec.getElem_setWidth, Nat.add_sub_cancel_left, Bool.false_or, decide_true,
    decide_false, Bool.not_false, Bool.true_and]

/-- The mask clears a multiplier that fits. -/
theorem mult_and_mask (hmult : mult.toNat < 2 ^ 16) : mult &&& 0xC3FF0000#32 = 0#32 := by
  ext i hi
  rw [← BitVec.getLsbD_eq_getElem, ← BitVec.getLsbD_eq_getElem, BitVec.getLsbD_and,
    BitVec.getLsbD_zero]
  by_cases hlow : i < 16
  · rw [mask_mult_clear ⟨i, hlow⟩, Bool.and_false]
  · rw [getLsbD_eq_false_of_lt hmult (by omega), Bool.false_and]

/-- The mask clears a divider that fits, where it is shifted to. -/
theorem div_and_mask (hdiv : div.toNat < 2 ^ 4) : div <<< 26 &&& 0xC3FF0000#32 = 0#32 := by
  ext i hi
  rw [← BitVec.getLsbD_eq_getElem, ← BitVec.getLsbD_eq_getElem, BitVec.getLsbD_and,
    BitVec.getLsbD_shiftLeft, BitVec.getLsbD_zero]
  by_cases hlow : i < 26
  · simp only [hlow, decide_true, Bool.not_true, Bool.and_false, Bool.false_and]
  · obtain ⟨j, rfl⟩ : ∃ j, i = 26 + j := ⟨i - 26, by omega⟩
    by_cases hfield : j < 4
    · rw [mask_div_clear ⟨j, hfield⟩, Bool.and_false]
    · rw [Nat.add_sub_cancel_left, getLsbD_eq_false_of_lt hdiv (by omega), Bool.and_false,
        Bool.false_and]

/-- Parameters that fit their fields touch no other bit. -/
theorem field_others (hmult : mult.toNat < 2 ^ 16) (hdiv : div.toNat < 2 ^ 4) :
    (kept ||| (mult ||| (div <<< 26))) &&& 0xC3FF0000#32 = kept := by
  have hkept : kept &&& 0xC3FF0000#32 = kept := by decide
  rw [BitVec.and_or_distrib_right, BitVec.and_or_distrib_right, hkept, mult_and_mask hmult,
    div_and_mask hdiv, BitVec.or_zero, BitVec.or_zero]

/-- **Packing**: the parameters survive exactly when each fits its field. -/
theorem packed_iff (fll : FllRegs) (p : FllParams) :
    Packed fll p ↔ p.mult.toNat < 2 ^ 16 ∧ p.div.toNat < 2 ^ 4 := by
  constructor
  · intro h
    have hmult : p.mult.toNat < 2 ^ 16 := by
      rw [← h.mult]
      exact BitVec.isLt _
    have hdiv : p.div.toNat < 2 ^ 4 := by
      rw [← h.div]
      exact BitVec.isLt _
    exact ⟨hmult, hdiv⟩
  · intro h
    obtain ⟨hmult, hdiv⟩ := h
    refine ⟨?_, ?_, ?_⟩
    · rw [conf1_eq, field_mult, BitVec.toNat_setWidth, Nat.mod_eq_of_lt hmult]
    · rw [conf1_eq, field_div hmult, BitVec.toNat_setWidth, Nat.mod_eq_of_lt hdiv]
    · rw [conf1_eq, field_others hmult hdiv, initFll_kept]

/-! ## Section 3: What the calculator returns -/

/-- Doubling loses the top bit of the target. -/
theorem double_toNat (target_freq : BitVec 32) :
    (2 * target_freq).toNat = 2 * (target_freq.toNat % 2 ^ 31) := by
  have htwo : (2 : BitVec 32).toNat = 2 := rfl
  rw [BitVec.toNat_mul, htwo]
  omega

theorem limit_toNat (target_freq : BitVec 32) :
    (limit target_freq).toNat = 3300000000 / (2 * (target_freq.toNat % 2 ^ 31)) := by
  rw [← double_toNat]
  exact BitVec.toNat_udiv

/-- The exponent the calculator finds for a bound `l` on the divider. -/
def exponent (l : BitVec 32) : BitVec 32 := 31 - (l - 1).clz

/-- The number whose leading zeros the calculator counts is not zero. -/
theorem below_toNat {l : BitVec 32} (hl : 1 < l.toNat) :
    (l - 1).toNat = l.toNat - 1 ∧ l - 1 ≠ 0#32 ∧ (l - 1).clz.toNat < 32 := by
  have hbelow : (l - 1).toNat = l.toNat - 1 := by
    have hone : (1 : BitVec 32).toNat = 1 := rfl
    have := l.isLt
    rw [BitVec.toNat_sub, hone]
    omega
  have hne : l - 1 ≠ 0#32 := by
    intro h0
    have hzero : (0#32).toNat = 0 := rfl
    rw [h0] at hbelow
    omega
  exact ⟨hbelow, hne, BitVec.lt_def.mp (BitVec.clz_lt_iff_ne_zero.mpr hne)⟩

theorem exponent_toNat {l : BitVec 32} (hl : 1 < l.toNat) :
    (exponent l).toNat = 31 - (l - 1).clz.toNat := by
  obtain ⟨_, _, hclz⟩ := below_toNat hl
  have h31 : (31 : BitVec 32).toNat = 31 := rfl
  unfold exponent
  rw [BitVec.toNat_sub, h31]
  omega

/-- The divider is the largest power of two below the bound. -/
theorem exponent_spec {l : BitVec 32} (hl : 1 < l.toNat) :
    2 ^ (exponent l).toNat < l.toNat ∧ l.toNat ≤ 2 ^ ((exponent l).toNat + 1) := by
  obtain ⟨hbelow, hne, hclz⟩ := below_toNat hl
  have he := exponent_toNat hl
  have hlow := BitVec.two_pow_sub_clz_le_toNat_of_ne_zero (by omega) hne
  have hhigh := BitVec.toNat_lt_two_pow_sub_clz (x := l - 1)
  have hexp : 32 - (l - 1).clz.toNat = (exponent l).toNat + 1 := by omega
  rw [hexp] at hhigh
  rw [← he] at hlow
  omega

/-- Only one exponent brackets a bound. -/
theorem exponent_unique {L j k : Nat} (hj : 2 ^ j < L ∧ L ≤ 2 ^ (j + 1))
    (hk : 2 ^ k < L ∧ L ≤ 2 ^ (k + 1)) : j = k := by
  have hjk : j < k + 1 :=
    (Nat.pow_lt_pow_iff_right (by omega : 1 < 2)).mp (Nat.lt_of_lt_of_le hj.1 hk.2)
  have hkj : k < j + 1 :=
    (Nat.pow_lt_pow_iff_right (by omega : 1 < 2)).mp (Nat.lt_of_lt_of_le hk.1 hj.2)
  omega

/-- The rounded numerator of the multiplier, for a divider `2 ^ k`. -/
def numerator (target_freq rtc_freq : BitVec 32) (k : Nat) : Nat :=
  (target_freq.toNat * 2 ^ k % 2 ^ 32 + rtc_freq.toNat / 2) % 2 ^ 32

/-- The rounded multiplier, before its lower bound of one. -/
theorem multiplier_toNat (target_freq rtc_freq : BitVec 32) {k : Nat} (hk : k < 32) :
    ((target_freq * (1#32 <<< k) + rtc_freq / 2) / rtc_freq).toNat =
      numerator target_freq rtc_freq k / rtc_freq.toNat := by
  have hpow : 2 ^ k < 2 ^ 32 := Nat.pow_lt_pow_right (by omega) hk
  have hone : (1#32).toNat = 1 := rfl
  have htwo : (2 : BitVec 32).toNat = 2 := rfl
  have hdout : (1#32 <<< k).toNat = 2 ^ k := by
    rw [BitVec.toNat_shiftLeft, hone, Nat.one_shiftLeft, Nat.mod_eq_of_lt hpow]
  unfold numerator
  rw [BitVec.toNat_udiv, BitVec.toNat_add, BitVec.toNat_mul, BitVec.toNat_udiv, hdout, htwo]

theorem toNat_atLeastOne (m : BitVec 32) :
    (if m = 0 then 1 else m).toNat = max 1 m.toNat := by
  have hone : (1 : BitVec 32).toNat = 1 := rfl
  by_cases h0 : m = 0
  · have hzero : (0 : BitVec 32).toNat = 0 := rfl
    rw [if_pos h0, h0, hone, hzero, Nat.max_eq_left (by omega)]
  · have hpos : 0 < m.toNat := Nat.pos_of_ne_zero fun h => h0 (BitVec.eq_of_toNat_eq h)
    rw [if_neg h0, Nat.max_eq_right hpos]

/-- **What a successful call returns**, in terms of the exponent. -/
theorem calculate_fll_params_eq_some {target_freq rtc_freq : BitVec 32} {p : FllParams}
    (h : calculate_fll_params target_freq rtc_freq = some p) :
    0 < rtc_freq.toNat ∧ 0 < (2 * target_freq).toNat ∧ 1 < (limit target_freq).toNat ∧
      p.div.toNat = (exponent (limit target_freq)).toNat + 1 ∧
      p.mult.toNat = max 1
        (numerator target_freq rtc_freq (exponent (limit target_freq)).toNat / rtc_freq.toNat) := by
  unfold calculate_fll_params at h
  -- behind the three refusals
  split at h
  · cases h
  · rename_i hzero
    split at h
    · cases h
    · rename_i hdenom
      split at h
      · cases h
      · rename_i hlimit
        have hpos {x : BitVec 32} (hx : ¬ x = 0) : 0 < x.toNat :=
          Nat.pos_of_ne_zero fun h0 => hx (BitVec.eq_of_toNat_eq h0)
        have hl : 1 < (limit target_freq).toNat := by
          rw [BitVec.not_le, BitVec.lt_def] at hlimit
          exact hlimit
        have he := exponent_toNat hl
        have hone : (1 : BitVec 32).toNat = 1 := rfl
        have hm := multiplier_toNat target_freq rtc_freq
          (k := (exponent (limit target_freq)).toNat) (by omega)
        cases h
        refine ⟨hpos (fun h0 => hzero (.inr h0)), hpos hdenom, hl, ?_, ?_⟩
        · show (exponent (limit target_freq) + 1).toNat = _
          rw [BitVec.toNat_add, hone]
          omega
        · rw [← hm]
          exact toNat_atLeastOne _

/-! ## Section 4: When the parameters fit -/

/-- The condition on the frequencies: the target is not too low for the
    divider field, and the multiplier for the largest divider `2 ^ k`
    below the bound rounds to less than `2 ^ 16`. -/
structure FitsFields (target_freq rtc_freq : BitVec 32) : Prop where
  div : 50353 ≤ target_freq.toNat % 2 ^ 31
  mult : ∀ k, 2 ^ k < (limit target_freq).toNat ∧ (limit target_freq).toNat ≤ 2 ^ (k + 1) →
    numerator target_freq rtc_freq k < 2 ^ 16 * rtc_freq.toNat

/-- The divider field is wide enough exactly from a target of 50353 Hz on,
    in the 31 bits of it that the doubling keeps. -/
theorem div_fits_iff {target_freq : BitVec 32} (hdenom : 0 < (2 * target_freq).toNat)
    (hl : 1 < (limit target_freq).toNat) :
    (exponent (limit target_freq)).toNat + 1 < 2 ^ 4 ↔ 50353 ≤ target_freq.toNat % 2 ^ 31 := by
  rw [double_toNat] at hdenom
  obtain ⟨hlow, hhigh⟩ := exponent_spec hl
  -- the exponent is below 15 exactly when the bound is at most `2 ^ 15`
  have hbound : (exponent (limit target_freq)).toNat + 1 < 2 ^ 4 ↔
      (limit target_freq).toNat ≤ 2 ^ 15 := by
    constructor
    · intro he
      exact hhigh.trans (Nat.pow_le_pow_right (by omega) (by omega))
    · intro hle
      have := (Nat.pow_lt_pow_iff_right (by omega : 1 < 2)).mp (Nat.lt_of_lt_of_le hlow hle)
      omega
  rw [hbound, ← Nat.lt_add_one_iff, limit_toNat, Nat.div_lt_iff_lt_mul hdenom]
  omega

theorem mult_fits_iff {target_freq rtc_freq : BitVec 32} (hrtc : 0 < rtc_freq.toNat)
    (hl : 1 < (limit target_freq).toNat) :
    max 1 (numerator target_freq rtc_freq (exponent (limit target_freq)).toNat /
        rtc_freq.toNat) < 2 ^ 16 ↔
      ∀ k, 2 ^ k < (limit target_freq).toNat ∧ (limit target_freq).toNat ≤ 2 ^ (k + 1) →
        numerator target_freq rtc_freq k < 2 ^ 16 * rtc_freq.toNat := by
  have hspec := exponent_spec hl
  rw [Nat.max_lt, Nat.div_lt_iff_lt_mul hrtc]
  constructor
  · intro h k hk
    rw [exponent_unique hk hspec]
    exact h.2
  · intro h
    exact ⟨by omega, h _ hspec⟩

/-- **When the parameters survive packing**: whatever CFG1 held before,
    the parameters of a successful calculation come out of it unharmed
    exactly when the frequencies meet `FitsFields`. -/
theorem fll_params_packed_iff (target_freq rtc_freq : BitVec 32) (p : FllParams)
    (h : calculate_fll_params target_freq rtc_freq = some p) (fll : FllRegs) :
    Packed fll p ↔ FitsFields target_freq rtc_freq := by
  obtain ⟨hrtc, hdenom, hl, hdiv, hmult⟩ := calculate_fll_params_eq_some h
  rw [packed_iff, hdiv, hmult, div_fits_iff hdenom hl, mult_fits_iff hrtc hl]
  constructor
  · intro hfits
    exact ⟨hfits.2, hfits.1⟩
  · intro hfits
    exact ⟨hfits.mult, hfits.div⟩

/-- The registers after reset. -/
def resetRegs : FllRegs := { status := 0, conf1 := 0, conf2 := 0, integrator := 0 }

/-- A target of 200 MHz from a 32 kHz reference fits. -/
theorem fll_200MHz_fits : FitsFields 200000000 32768 :=
  (fll_params_packed_iff 200000000 32768 { mult := 24414, div := 3 } (by decide) resetRegs).mp
    ⟨by decide, by decide, by decide⟩

/-- At 50 kHz the divider is 16, and its field reads zero. -/
theorem fll_50kHz_not_packed :
    ¬ ∀ (target_freq rtc_freq : BitVec 32) (p : FllParams),
        calculate_fll_params target_freq rtc_freq = some p → ∀ fll, Packed fll p := by
  intro hall
  have hp : calculate_fll_params 50000 32768 = some { mult := 50000, div := 16 } := by decide
  have hpacked := (hall 50000 32768 _ hp resetRegs).div
  exact absurd hpacked (by decide)

end Fll
