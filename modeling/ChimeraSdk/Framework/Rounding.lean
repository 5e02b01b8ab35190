import Mathlib.Algebra.Ring.Nat

/-! # Integer Rounding

    Two facts that integer code needs whenever it replaces a ratio by an
    integer.  A division after adding half of the divisor is a nearest
    multiple, and an upper bound on a product is an upper bound on one
    factor: a strict one if the other factor divides the bound, and a weak
    one if it does not. -/

namespace Rounding

/-! ## Section 1: Nearest multiples -/

/-- `n / d` rounded to an integer, halves upwards. -/
def nearest (n d : Nat) : Nat := (n + d / 2) / d

/-- How far the multiple `m * d` is from `n`. -/
def error (n d m : Nat) : Nat := ((m * d : Nat) - n : Int).natAbs

variable {n d m k : Nat}

/-- The error of the nearest multiple is at most half of the divisor. -/
theorem error_nearest_le (hd : 0 < d) : 2 * error n d (nearest n d) ≤ d := by
  have hdiv := Nat.div_add_mod (n + d / 2) d
  have hmod := Nat.mod_lt (n + d / 2) hd
  have hcomm : nearest n d * d = d * ((n + d / 2) / d) := Nat.mul_comm _ _
  unfold error
  rw [hcomm]
  omega

/-- Two different multiples are at least one divisor apart. -/
theorem le_error_add_error (hmk : m ≠ k) : d ≤ error n d m + error n d k := by
  unfold error
  by_cases hlt : m < k
  · have hstep : (m + 1) * d ≤ k * d := Nat.mul_le_mul_right d hlt
    rw [Nat.succ_mul] at hstep
    omega
  · have hstep : (k + 1) * d ≤ m * d := Nat.mul_le_mul_right d (by omega)
    rw [Nat.succ_mul] at hstep
    omega

/-- A multiple within half of the divisor is a closest one. -/
theorem error_le_of_half (hm : 2 * error n d m ≤ d) (k : Nat) : error n d m ≤ error n d k := by
  by_cases hmk : m = k
  · rw [hmk]
  · have hapart := le_error_add_error (n := n) (d := d) hmk
    omega

theorem nearest_eq_zero_iff (hd : 0 < d) : nearest n d = 0 ↔ n < (d + 1) / 2 := by
  have hzero : nearest n d = 0 ↔ n + d / 2 < d := Nat.div_eq_zero_iff_lt hd
  rw [hzero]
  omega

/-- Below the first multiple, that multiple is the closest positive one. -/
theorem error_one_le (hn : n ≤ d) (hk : 1 ≤ k) : error n d 1 ≤ error n d k := by
  have hstep : 1 * d ≤ k * d := Nat.mul_le_mul_right d hk
  unfold error
  omega

/-! ## Section 2: Strict bounds on a factor -/

variable {a b x : Nat}

/-- Where the other factor does not divide the bound, the quotient itself
    is allowed. -/
theorem mul_lt_iff_le_div (ha : 0 < a) (hab : ¬ a ∣ b) : a * x < b ↔ x ≤ b / a := by
  rw [Nat.le_div_iff_mul_le ha, Nat.mul_comm x a]
  constructor
  · exact Nat.le_of_lt
  · intro hle
    exact Nat.lt_of_le_of_ne hle fun heq => hab ⟨x, heq.symm⟩

end Rounding
