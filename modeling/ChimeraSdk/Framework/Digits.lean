import Mathlib.Data.List.Basic

/-! # Positional Notation

    `Nat.toDigits` writes a number in a base.  A reader that folds the
    values of the digits gets the number back, also behind leading zeros. -/

namespace Digits

variable {b : Nat}

/-- Every character written is a digit of the base. -/
theorem forall_mem_toDigits {P : Char → Prop} (hb : 1 < b) (h : ∀ d < b, P (Nat.digitChar d))
    (n : Nat) : ∀ c ∈ Nat.toDigits b n, P c := by
  induction n using Nat.strongRecOn with
  | ind n ih =>
    rw [Nat.toDigits_eq_if hb]
    by_cases hn : n < b
    · rw [if_pos hn]
      intro c hc
      rw [List.mem_singleton.mp hc]
      exact h n hn
    · rw [if_neg hn]
      intro c hc
      rcases List.mem_append.mp hc with hc | hc
      · exact ih (n / b) (Nat.div_lt_self (by omega) hb) c hc
      · rw [List.mem_singleton.mp hc]
        exact h (n % b) (Nat.mod_lt n (by omega))

/-- **Reading back**: the digits of a number fold to the number. -/
theorem foldl_toDigits {val : Char → Nat} (hb : 1 < b) (hval : ∀ d < b, val (Nat.digitChar d) = d)
    (n : Nat) : (Nat.toDigits b n).foldl (fun a c => b * a + val c) 0 = n := by
  induction n using Nat.strongRecOn with
  | ind n ih =>
    rw [Nat.toDigits_eq_if hb]
    by_cases hn : n < b
    · rw [if_pos hn]
      simp [hval n hn]
    · rw [if_neg hn, List.foldl_append, ih (n / b) (Nat.div_lt_self (by omega) hb)]
      simp only [List.foldl_cons, List.foldl_nil, hval (n % b) (Nat.mod_lt n (by omega))]
      exact Nat.div_add_mod n b

/-- The digits of a number, right-aligned in a field of some width. -/
def padded (fill : Char) (width : Nat) (digits : List Char) : List Char :=
  List.replicate (width - digits.length) fill ++ digits

/-- Leading zeros do not count. -/
theorem foldl_padded {val : Char → Nat} {fill : Char} (hfill : val fill = 0) (width : Nat)
    (digits : List Char) : (padded fill width digits).foldl (fun a c => b * a + val c) 0 =
      digits.foldl (fun a c => b * a + val c) 0 := by
  have hzeros : ∀ k, (List.replicate k fill).foldl (fun a c => b * a + val c) 0 = 0 := by
    intro k
    induction k with
    | zero => rfl
    | succ k ih =>
      rw [List.replicate_succ, List.foldl_cons, hfill, Nat.mul_zero]
      exact ih
  rw [padded, List.foldl_append, hzeros]

theorem forall_mem_padded {P : Char → Prop} {fill : Char} {digits : List Char} (hfill : P fill)
    (h : ∀ c ∈ digits, P c) (width : Nat) : ∀ c ∈ padded fill width digits, P c := by
  intro c hc
  rcases List.mem_append.mp hc with hc | hc
  · rw [List.eq_of_mem_replicate hc]
    exact hfill
  · exact h c hc

theorem padded_ne_nil {fill : Char} {width : Nat} {digits : List Char} (h : digits ≠ []) :
    padded fill width digits ≠ [] :=
  List.append_ne_nil_of_right_ne_nil _ h

end Digits
