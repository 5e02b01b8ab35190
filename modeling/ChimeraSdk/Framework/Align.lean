import Mathlib.Data.Nat.Bitwise

/-! # Alignment

    Rounding a number up or down to a multiple, and the bit mask with
    which machine code rounds a word down.  `alignUp` is exact; what a program
    computes with a mask agrees with it until an addition wraps around. -/

namespace Align

/-- The least multiple of `a` that is at least `x`. -/
def alignUp (x a : Nat) : Nat := (x + a - 1) / a * a

variable {x y a : Nat}

theorem alignUp_mod (x a : Nat) : alignUp x a % a = 0 := Nat.mul_mod_left _ _

theorem le_alignUp (ha : 0 < a) : x ≤ alignUp x a := by
  have hdiv := Nat.div_add_mod (x + a - 1) a
  have hlt := Nat.mod_lt (x + a - 1) ha
  have hcomm : (x + a - 1) / a * a = a * ((x + a - 1) / a) := Nat.mul_comm _ _
  simp only [alignUp]
  omega

theorem alignUp_of_mod (ha : 0 < a) (hx : x % a = 0) : alignUp x a = x := by
  obtain ⟨k, rfl⟩ := Nat.dvd_of_mod_eq_zero hx
  have hk : (a * k + a - 1) / a = k := by
    have hsplit : a * k + a - 1 = a - 1 + a * k := by omega
    rw [hsplit, Nat.add_mul_div_left _ _ ha, Nat.div_eq_of_lt (by omega), Nat.zero_add]
  rw [alignUp, hk, Nat.mul_comm]

theorem alignUp_eq_zero_iff (ha : 0 < a) : alignUp x a = 0 ↔ x = 0 := by
  constructor
  · intro h
    have hle : x ≤ alignUp x a := le_alignUp ha
    omega
  · intro h
    rw [h, alignUp_of_mod ha (Nat.zero_mod a)]

theorem alignUp_mono (hxy : x ≤ y) : alignUp x a ≤ alignUp y a :=
  Nat.mul_le_mul_right _ (Nat.div_le_div_right (by omega))

/-- Rounding up is the least multiple above. -/
theorem alignUp_le (ha : 0 < a) (hxy : x ≤ y) (hy : y % a = 0) : alignUp x a ≤ y :=
  alignUp_of_mod ha hy ▸ alignUp_mono hxy

theorem alignUp_add (hx : x % a = 0) : alignUp (x + y) a = x + alignUp y a := by
  rcases Nat.eq_zero_or_pos a with rfl | ha
  · have hx0 : x = 0 := by simpa using hx
    simp [alignUp, hx0]
  · obtain ⟨k, rfl⟩ := Nat.dvd_of_mod_eq_zero hx
    have hsplit : a * k + y + a - 1 = y + a - 1 + a * k := by omega
    rw [alignUp, hsplit, Nat.add_mul_div_left _ _ ha, Nat.add_mul, alignUp, Nat.mul_comm a k,
      Nat.add_comm]

/-- Rounding up is rounding down what is `a - 1` further. -/
theorem alignUp_eq_sub_mod (x a : Nat) : alignUp x a = (x + a - 1) - (x + a - 1) % a := by
  have hdiv := Nat.div_add_mod (x + a - 1) a
  have hcomm : (x + a - 1) / a * a = a * ((x + a - 1) / a) := Nat.mul_comm _ _
  simp only [alignUp]
  omega

/-- The mask `~(2^k - 1)` of a `w`-bit word clears the low `k` bits. -/
theorem and_mask (w k t : Nat) (hk : k ≤ w) (ht : t < 2 ^ w) :
    t &&& (2 ^ w - 2 ^ k) = t - t % 2 ^ k := by
  have hmask : 2 ^ w - 2 ^ k = (2 ^ (w - k) - 1) <<< k := by
    rw [Nat.shiftLeft_eq, Nat.sub_mul, ← Nat.pow_add, Nat.sub_add_cancel hk, Nat.one_mul]
  have hdown : t - t % 2 ^ k = (t >>> k) <<< k := by
    have hdiv := Nat.div_add_mod t (2 ^ k)
    have hcomm : t / 2 ^ k * 2 ^ k = 2 ^ k * (t / 2 ^ k) := Nat.mul_comm _ _
    rw [Nat.shiftLeft_eq, Nat.shiftRight_eq_div_pow]
    omega
  rw [hmask, hdown]
  -- both sides keep the bits from `k` on; above `w` there are none
  apply Nat.eq_of_testBit_eq
  intro i
  simp only [Nat.testBit_and, Nat.testBit_shiftLeft, Nat.testBit_two_pow_sub_one,
    Nat.testBit_shiftRight]
  by_cases hi : k ≤ i
  · have hback : k + (i - k) = i := by omega
    simp only [ge_iff_le, hi, decide_true, Bool.true_and, hback]
    by_cases hw : i - k < w - k
    · simp [hw]
    · have hhigh : t.testBit i = false := by
        apply Nat.testBit_lt_two_pow
        exact lt_of_lt_of_le ht (Nat.pow_le_pow_right (by omega) (by omega))
      simp [hhigh]
  · simp [hi]

/-- The greatest multiple of `a` that is at most `x`. -/
def alignDown (x a : Nat) : Nat := x - x % a

theorem alignDown_le (x a : Nat) : alignDown x a ≤ x := Nat.sub_le _ _

theorem lt_alignDown_add (ha : 0 < a) : x < alignDown x a + a := by
  have hlt := Nat.mod_lt x ha
  unfold alignDown
  omega

theorem alignDown_mod (x a : Nat) : alignDown x a % a = 0 := by
  have hdiv := Nat.div_add_mod x a
  have heq : alignDown x a = a * (x / a) := by
    unfold alignDown
    omega
  rw [heq, Nat.mul_mod_right]

/-- The mask `~(2^k - 1)`, as a word. -/
theorem toNat_and_not_mask {w : Nat} (x : BitVec w) {k : Nat} (hk : k ≤ w) :
    (x &&& ~~~(BitVec.ofNat w (2 ^ k - 1))).toNat = alignDown x.toNat (2 ^ k) := by
  have hpow : 2 ^ k ≤ 2 ^ w := Nat.pow_le_pow_right (by omega) hk
  have hpos : 0 < 2 ^ k := Nat.two_pow_pos k
  have hmask : (~~~(BitVec.ofNat w (2 ^ k - 1))).toNat = 2 ^ w - 2 ^ k := by
    rw [BitVec.toNat_not, BitVec.toNat_ofNat, Nat.mod_eq_of_lt (by omega)]
    omega
  rw [BitVec.toNat_and, hmask, and_mask w k x.toNat hk x.isLt]
  rfl

end Align
