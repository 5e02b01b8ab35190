import Mathlib.Algebra.BigOperators.Group.List.Basic
import Mathlib.Algebra.Ring.Nat

/-! # Consecutive Blocks

    Blocks of given sizes, one behind the other from position zero on.  A
    position lies in at most one block.  Which one it is can be read off
    without a search: it is the number of later blocks that have started. -/

namespace Blocks

/-- Where block `c` starts: behind the blocks before it. -/
def start (sizes : List Nat) (c : Nat) : Nat := (sizes.take c).sum

/-- The number of blocks behind the first that start at `x` or before. -/
def blockOf (sizes : List Nat) (x : Nat) : Nat :=
  (List.range' 1 (sizes.length - 1)).countP (fun j => start sizes j ≤ x)

variable {sizes : List Nat} {c d i j : Nat}

theorem start_succ (hc : c < sizes.length) : start sizes (c + 1) = start sizes c + sizes[c] := by
  unfold start
  rw [List.take_succ_eq_append_getElem hc, List.sum_append, List.sum_singleton]

theorem start_mono (hcd : c ≤ d) : start sizes c ≤ start sizes d := by
  have hsplit := List.sum_take_add_sum_drop (sizes.take d) c
  rw [List.take_take, Nat.min_eq_left hcd] at hsplit
  unfold start
  omega

theorem start_le_sum : start sizes c ≤ sizes.sum := by
  have hsplit := List.sum_take_add_sum_drop sizes c
  unfold start
  omega

/-- A block ends before a later one starts. -/
theorem start_add_lt (hc : c < sizes.length) (hi : i < sizes[c]) (hcd : c < d) :
    start sizes c + i < start sizes d := by
  have hnext : start sizes (c + 1) ≤ start sizes d := start_mono hcd
  rw [start_succ hc] at hnext
  omega

/-- The block that a position lies in has started, and no later one. -/
theorem start_le_iff (hc : c < sizes.length) (hi : i < sizes[c]) :
    start sizes j ≤ start sizes c + i ↔ j ≤ c := by
  constructor
  · intro hle
    by_contra hgt
    have hlt := start_add_lt hc hi (Nat.lt_of_not_le hgt)
    omega
  · intro hle
    exact (start_mono hle).trans (Nat.le_add_right _ _)

/-- A position belongs to one block. -/
theorem start_add_inj (hc : c < sizes.length) (hd : d < sizes.length) (hi : i < sizes[c])
    (hj : j < sizes[d]) (h : start sizes c + i = start sizes d + j) : c = d ∧ i = j := by
  have hdc : d ≤ c := (start_le_iff hc hi).mp (h ▸ Nat.le_add_right _ _)
  have hcd : c ≤ d := (start_le_iff hd hj).mp (h ▸ Nat.le_add_right _ _)
  obtain rfl := Nat.le_antisymm hcd hdc
  exact ⟨rfl, Nat.add_left_cancel h⟩

/-- Of the numbers from 1 to `n`, the first `c` are at most `c`. -/
theorem countP_range'_le {n : Nat} (hc : c ≤ n) : (List.range' 1 n).countP (· ≤ c) = c := by
  induction n with
  | zero =>
    rw [Nat.le_zero.mp hc]
    rfl
  | succ n ih =>
    rw [List.range'_1_concat, List.countP_append, List.countP_singleton]
    by_cases hlast : c = n + 1
    · -- all of them are
      have hall : (List.range' 1 n).countP (· ≤ c) = n := by
        rw [List.countP_eq_length.mpr, List.length_range']
        intro x hx
        rw [List.mem_range'_1] at hx
        exact decide_eq_true (by omega)
      rw [hall, hlast, if_pos (decide_eq_true (by omega))]
    · have hgt : ¬ decide (1 + n ≤ c) = true := by
        rw [decide_eq_true_eq]
        omega
      rw [ih (by omega), if_neg hgt, Nat.add_zero]

/-- **Counting finds the block.** -/
theorem blockOf_start_add (hc : c < sizes.length) (hi : i < sizes[c]) :
    blockOf sizes (start sizes c + i) = c := by
  unfold blockOf
  have hcongr : (List.range' 1 (sizes.length - 1)).countP
      (fun j => start sizes j ≤ start sizes c + i) =
        (List.range' 1 (sizes.length - 1)).countP (· ≤ c) := by
    refine List.countP_congr fun j _ => ?_
    simp only [decide_eq_true_eq]
    exact start_le_iff hc hi
  rw [hcongr, countP_range'_le (by omega)]

end Blocks
