import ChimeraSdk.Framework.Align
import Mathlib.Algebra.BigOperators.Group.Finset.Basic
import Mathlib.Algebra.Ring.Nat

/-! # Carving Downwards

    Regions of given sizes are carved off the top of an address range, one
    below the other.  The end of each region is rounded down to a multiple
    of `a`; where the next one starts is not. -/

open Align

namespace Carving

/-- The address below which region `i` is carved. -/
def top (a sp : Nat) (size : Nat → Nat) : Nat → Nat
  | 0 => sp
  | i + 1 => alignDown (top a sp size i) a - size i

/-- The end of region `i`. -/
def ptr (a sp : Nat) (size : Nat → Nat) (i : Nat) : Nat := alignDown (top a sp size i) a

/-- The first `n` regions fit below `sp`, with one alignment for each. -/
def Fits (a sp : Nat) (size : Nat → Nat) (n : Nat) : Prop :=
  ∑ i ∈ Finset.range n, size i + a * n ≤ sp

/-- The `n` regions that end at `ptr i` and have `size i` bytes, carved
    from `sp` down to `bottom`. -/
structure Carved (a sp bottom n : Nat) (size ptr : Nat → Nat) : Prop where
  aligned : ∀ i < n, ptr i % a = 0
  inside : ∀ i < n, size i ≤ ptr i ∧ bottom ≤ ptr i - size i ∧ ptr i ≤ sp
  disjoint : ∀ i < n, ∀ j < n, i ≠ j → ptr j ≤ ptr i - size i ∨ ptr i ≤ ptr j - size j
  first_gap : 0 < n → sp - ptr 0 < a
  next_gap : ∀ i, i + 1 < n → ptr (i + 1) ≤ ptr i - size i ∧ ptr i - size i - ptr (i + 1) < a
  last_gap : ∀ i, i + 1 = n → bottom = ptr i - size i
  waste : sp ≤ bottom + ∑ i ∈ Finset.range n, size i + (a - 1) * n

variable {a sp n : Nat} {size : Nat → Nat}

/-- Only the first `n` ends matter. -/
theorem Carved.congr {bottom : Nat} {ptr ptr' : Nat → Nat} (h : Carved a sp bottom n size ptr)
    (heq : ∀ i < n, ptr' i = ptr i) : Carved a sp bottom n size ptr' := by
  refine ⟨?_, ?_, ?_, ?_, ?_, ?_, h.waste⟩
  · intro i hi
    rw [heq i hi]
    exact h.aligned i hi
  · intro i hi
    rw [heq i hi]
    exact h.inside i hi
  · intro i hi j hj
    rw [heq i hi, heq j hj]
    exact h.disjoint i hi j hj
  · intro hn
    rw [heq 0 hn]
    exact h.first_gap hn
  · intro i hi
    rw [heq i (by omega), heq (i + 1) hi]
    exact h.next_gap i hi
  · intro i hi
    rw [heq i (by omega)]
    exact h.last_gap i hi

theorem Fits.mono (h : Fits a sp size n) {i : Nat} (hi : i ≤ n) : Fits a sp size i := by
  induction n with
  | zero => exact (Nat.le_zero.mp hi) ▸ h
  | succ n ih =>
    by_cases heq : i = n + 1
    · exact heq ▸ h
    · refine ih ?_ (by omega)
      unfold Fits at h ⊢
      rw [Finset.sum_range_succ, Nat.mul_succ] at h
      omega

/-- As long as the regions fit, nothing is lost but the rounding. -/
theorem top_ge (ha : 0 < a) (h : Fits a sp size n) :
    sp ≤ top a sp size n + ∑ i ∈ Finset.range n, size i + (a - 1) * n := by
  induction n with
  | zero => simp [top]
  | succ n ih =>
    have hprev := ih (h.mono (Nat.le_succ n))
    have hround := lt_alignDown_add (x := top a sp size n) ha
    unfold Fits at h
    rw [Finset.sum_range_succ, Nat.mul_succ] at h ⊢
    have hsub : (a - 1) * n ≤ a * n := Nat.mul_le_mul_right n (Nat.sub_le a 1)
    simp only [top]
    omega

/-- A region that fits does not reach below zero. -/
theorem size_le_ptr (ha : 0 < a) (h : Fits a sp size (n + 1)) : size n ≤ ptr a sp size n := by
  have hprev := top_ge ha (h.mono (Nat.le_succ n))
  have hround := lt_alignDown_add (x := top a sp size n) ha
  have hsub : (a - 1) * n ≤ a * n := Nat.mul_le_mul_right n (Nat.sub_le a 1)
  unfold Fits at h
  rw [Finset.sum_range_succ, Nat.mul_succ] at h
  unfold ptr
  omega

/-- The carving goes down. -/
theorem top_antitone (a sp : Nat) (size : Nat → Nat) {i j : Nat} (hij : i ≤ j) :
    top a sp size j ≤ top a sp size i := by
  induction hij with
  | refl => exact Nat.le_refl _
  | @step j _ ih =>
    have hround := alignDown_le (top a sp size j) a
    simp only [top]
    omega

/-- A later region ends where an earlier one starts, or below. -/
theorem ptr_le_start (a sp : Nat) (size : Nat → Nat) {i j : Nat} (hij : i < j) :
    ptr a sp size j ≤ ptr a sp size i - size i :=
  (alignDown_le _ a).trans (top_antitone a sp size hij)

/-- **Carving**: regions that fit are aligned, disjoint, inside the range,
    and waste less than one alignment each. -/
theorem carved (ha : 0 < a) (h : Fits a sp size n) :
    Carved a sp (top a sp size n) n size (ptr a sp size) := by
  refine ⟨?_, ?_, ?_, ?_, ?_, ?_, top_ge ha h⟩
  · intro i _
    exact alignDown_mod _ a
  · intro i hi
    refine ⟨size_le_ptr ha (h.mono hi), ?_, ?_⟩
    · exact top_antitone a sp size hi
    · exact (alignDown_le _ a).trans (top_antitone a sp size (Nat.zero_le i))
  · -- of two regions, the later one ends at or below the start of the other
    intro i _ j _ hne
    by_cases hij : i < j
    · exact .inl (ptr_le_start a sp size hij)
    · exact .inr (ptr_le_start a sp size (by omega))
  · intro _
    have hround := lt_alignDown_add (x := sp) ha
    show sp - alignDown sp a < a
    omega
  · intro i _
    have hround := lt_alignDown_add (x := ptr a sp size i - size i) ha
    refine ⟨ptr_le_start a sp size (Nat.lt_succ_self i), ?_⟩
    show ptr a sp size i - size i - alignDown (ptr a sp size i - size i) a < a
    omega
  · intro i hi
    exact hi ▸ rfl

/-- Carving the rest of the regions from below the first one. -/
theorem top_succ (a sp : Nat) (size : Nat → Nat) (n : Nat) :
    top a (alignDown sp a - size 0) (fun i => size (i + 1)) n = top a sp size (n + 1) := by
  induction n with
  | zero => rfl
  | succ n ih =>
    show alignDown (top a (alignDown sp a - size 0) (fun i => size (i + 1)) n) a - size (n + 1) =
      alignDown (top a sp size (n + 1)) a - size (n + 1)
    rw [ih]

theorem ptr_succ (a sp : Nat) (size : Nat → Nat) (i : Nat) :
    ptr a (alignDown sp a - size 0) (fun i => size (i + 1)) i = ptr a sp size (i + 1) := by
  unfold ptr
  rw [top_succ]

theorem Fits.tail (ha : 0 < a) (h : Fits a sp size (n + 1)) :
    Fits a (alignDown sp a - size 0) (fun i => size (i + 1)) n := by
  have hround := lt_alignDown_add (x := sp) ha
  unfold Fits at h
  rw [Finset.sum_range_succ', Nat.mul_succ] at h
  show ∑ i ∈ Finset.range n, size (i + 1) + a * n ≤ alignDown sp a - size 0
  omega

end Carving
