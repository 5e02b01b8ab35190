import ChimeraSdk.Device.Chunks
import Mathlib.Data.Nat.Sqrt
import Mathlib.Tactic.Linarith
import Mathlib.Tactic.Ring

/-! # The Layer Normalisation

    The kernel normalises a row with its mean and its standard deviation,
    in integers.  The standard deviation comes from a square root that finds
    one bit of the root a round. -/

open Cluster ByteMemory CInt

namespace Snrt

/-! ## Section 1: The square root -/

/-- `while (bit > number) bit >>= 2;` for a positive `number` -/
def skipBits (number : Int) (bit : Nat) : Nat :=
  if number < bit ∧ 0 < bit then skipBits number (bit >>> 2) else bit
termination_by bit
decreasing_by
  rw [Nat.shiftRight_eq_div_pow]
  omega

/-- `while (bit != 0) { ... }` -/
def rootLoop (number root : Int) (bit : Nat) : Int :=
  if bit = 0 then root
  else if number ≥ int32 (root + bit) then
    rootLoop (int32 (number - int32 (root + bit))) (int32 ((root >>> (1 : Nat)) + bit)) (bit >>> 2)
  else rootLoop number (root >>> (1 : Nat)) (bit >>> 2)
termination_by bit
decreasing_by
  all_goals
    rw [Nat.shiftRight_eq_div_pow]
    omega

def plp_sqrt_q32_fixed (number : Int) : Int :=
  if number ≤ 0 then 1 else rootLoop number 0 (skipBits number (1 <<< 30))

section Root

variable {N r e : Nat}

theorem shift_four (e : Nat) : 4 ^ (e + 1) >>> 2 = 4 ^ e := by
  rw [Nat.shiftRight_eq_div_pow, Nat.pow_succ]
  omega

theorem four_pow (e : Nat) : 4 ^ e = 2 ^ e * 2 ^ e := by
  rw [← Nat.mul_pow]

/-- Nothing overflows: the root so far is a multiple of the next two bits. -/
theorem root_add_bit_lt (hN : N < 2 ^ 31) (he : e ≤ 15) (hroot : r * r ≤ N)
    (hdvd : 2 ^ (e + 1) ∣ r) : r * 2 ^ (e + 1) + 4 ^ e < 2 ^ 31 := by
  obtain ⟨k, rfl⟩ := hdvd
  have hsquare : 2 ^ (e + 1) * k * (2 ^ (e + 1) * k) = 4 * (k * k) * 4 ^ e := by
    rw [four_pow, Nat.pow_succ]
    ring
  have hterm : 2 ^ (e + 1) * k * 2 ^ (e + 1) = 4 * k * 4 ^ e := by
    rw [four_pow, Nat.pow_succ]
    ring
  rw [hsquare] at hroot
  rw [hterm]
  match k with
  | 0 =>
    have hbit : 4 ^ e ≤ 4 ^ 15 := Nat.pow_le_pow_right (by omega) he
    omega
  | 1 =>
    have hbit : 4 ^ e ≤ 4 ^ 14 := by
      apply Nat.pow_le_pow_right (by omega)
      by_contra hlt
      have htop : e = 15 := by omega
      rw [htop] at hroot
      omega
    omega
  | k + 2 =>
    -- the square of the root dominates both terms
    have hterm : 4 * (k + 2) * 4 ^ e = 4 * ((k + 2) * 4 ^ e) := Nat.mul_assoc _ _ _
    have hsquare : 4 * ((k + 2) * (k + 2)) * 4 ^ e = 4 * ((k + 2) * ((k + 2) * 4 ^ e)) := by ring
    have hone : 2 * 4 ^ e ≤ (k + 2) * 4 ^ e := Nat.mul_le_mul_right _ (by omega)
    have htwo : 2 * ((k + 2) * 4 ^ e) ≤ (k + 2) * ((k + 2) * 4 ^ e) :=
      Nat.mul_le_mul_right _ (by omega)
    omega

/-- A round: the bit belongs to the root if the square stays below `N`. -/
theorem rootLoop_step (hN : N < 2 ^ 31) (he : e ≤ 15) (hdvd : 2 ^ (e + 1) ∣ r) (hlo : r * r ≤ N) :
    rootLoop ((N - r * r : Nat) : Int) ((r * 2 ^ (e + 1) : Nat) : Int) (4 ^ e) =
      if (r + 2 ^ e) * (r + 2 ^ e) ≤ N then
        rootLoop ((N - (r + 2 ^ e) * (r + 2 ^ e) : Nat) : Int) (((r + 2 ^ e) * 2 ^ e : Nat) : Int)
          (4 ^ e >>> 2)
      else rootLoop ((N - r * r : Nat) : Int) ((r * 2 ^ e : Nat) : Int) (4 ^ e >>> 2) := by
  have hbound := root_add_bit_lt hN he hlo hdvd
  have hsquare : (r + 2 ^ e) * (r + 2 ^ e) = r * r + (r * 2 ^ (e + 1) + 4 ^ e) := by
    rw [four_pow, Nat.pow_succ]
    ring
  have hnew : (r + 2 ^ e) * 2 ^ e = r * 2 ^ e + 4 ^ e := by
    rw [four_pow, Nat.add_mul]
  have htwice : r * 2 ^ (e + 1) = 2 * (r * 2 ^ e) := by
    rw [Nat.pow_succ]
    ring
  have hbit : 4 ^ e ≠ 0 := Nat.pos_iff_ne_zero.mp (Nat.pow_pos (by omega))
  have hshift : ((2 * (r * 2 ^ e) : Nat) : Int) >>> (1 : Nat) = ((r * 2 ^ e : Nat) : Int) := by
    rw [Int.shiftRight_eq_div_pow]
    omega
  rw [htwice] at hbound hsquare
  rw [rootLoop, if_neg hbit, hsquare, hnew, htwice]
  generalize 4 ^ e = bit at *
  generalize r * 2 ^ e = root at *
  generalize r * r = square at *
  rw [hshift, int32_of_range (v := ((2 * root : Nat) : Int) + bit) (by omega) (by omega)]
  by_cases hle : square + (2 * root + bit) ≤ N
  · have hnumber : ((N - square : Nat) : Int) - (((2 * root : Nat) : Int) + bit) =
        ((N - (square + (2 * root + bit)) : Nat) : Int) := by omega
    rw [if_pos (by omega), if_pos hle, hnumber, int32_of_range (by omega) (by omega),
      int32_of_range (by omega) (by omega)]
    rfl
  · rw [if_neg (by omega), if_neg hle]

/-- The loop finds the bits of the root below those it has. -/
theorem rootLoop_eq (hN : N < 2 ^ 31) (he : e ≤ 15) (hdvd : 2 ^ (e + 1) ∣ r) (hlo : r * r ≤ N)
    (hhi : N < (r + 2 ^ (e + 1)) * (r + 2 ^ (e + 1))) :
    rootLoop ((N - r * r : Nat) : Int) ((r * 2 ^ (e + 1) : Nat) : Int) (4 ^ e) =
      (Nat.sqrt N : Int) := by
  induction e generalizing r with
  | zero =>
    rw [rootLoop_step hN he hdvd hlo]
    have hend : ∀ number root : Int, rootLoop number root (4 ^ 0 >>> 2) = root := by
      intro number root
      rw [rootLoop]
      exact if_pos rfl
    rw [hend, hend]
    by_cases hle : (r + 2 ^ 0) * (r + 2 ^ 0) ≤ N
    · have hroot : r + 2 ^ 0 = Nat.sqrt N := Nat.eq_sqrt.mpr ⟨hle, hhi⟩
      rw [if_pos hle, ← hroot, Nat.pow_zero, Nat.mul_one]
    · have hroot : r = Nat.sqrt N := Nat.eq_sqrt.mpr ⟨hlo, Nat.lt_of_not_le hle⟩
      rw [if_neg hle, ← hroot, Nat.pow_zero, Nat.mul_one]
  | succ e ih =>
    have hdvd' : 2 ^ (e + 1) ∣ r := Nat.dvd_trans (Nat.pow_dvd_pow 2 (by omega)) hdvd
    have hdouble : r + 2 ^ (e + 1) + 2 ^ (e + 1) = r + 2 ^ (e + 1 + 1) := by
      rw [Nat.pow_succ 2 (e + 1)]
      omega
    rw [rootLoop_step hN he hdvd hlo, shift_four]
    by_cases hle : (r + 2 ^ (e + 1)) * (r + 2 ^ (e + 1)) ≤ N
    · rw [if_pos hle]
      apply ih (by omega) (Nat.dvd_add hdvd' (Nat.dvd_refl _)) hle
      rw [hdouble]
      exact hhi
    · rw [if_neg hle]
      exact ih (by omega) hdvd' hlo (Nat.lt_of_not_le hle)

/-- The first bit is the highest one whose square is not too large. -/
theorem skipBits_eq (hpos : 0 < N) (hhi : N < 4 ^ (e + 1)) :
    ∃ d, d ≤ e ∧ skipBits (N : Int) (4 ^ e) = 4 ^ d ∧ N < 4 ^ (d + 1) := by
  induction e with
  | zero =>
    refine ⟨0, le_rfl, ?_, hhi⟩
    rw [skipBits, if_neg]
    rw [Nat.pow_zero]
    omega
  | succ e ih =>
    by_cases hlt : N < 4 ^ (e + 1)
    · obtain ⟨d, hd, hskip, hd'⟩ := ih hlt
      refine ⟨d, by omega, ?_, hd'⟩
      rw [skipBits, if_pos ⟨by exact_mod_cast hlt, by omega⟩, shift_four, hskip]
    · refine ⟨e + 1, le_rfl, ?_, hhi⟩
      rw [skipBits, if_neg]
      intro ⟨h, _⟩
      exact hlt (by exact_mod_cast h)

/-- **The square root**: for a positive number it is the integer part of the
    root. -/
theorem plp_sqrt_eq (hpos : 0 < N) (hN : N < 2 ^ 31) :
    plp_sqrt_q32_fixed (N : Int) = (Nat.sqrt N : Int) := by
  have hstart : 1 <<< 30 = 4 ^ 15 := rfl
  obtain ⟨d, hd, hskip, hlt⟩ := skipBits_eq hpos (e := 15) (by omega)
  have hloop := rootLoop_eq (r := 0) hN hd (Nat.dvd_zero _) (Nat.zero_le _) (by
    rw [Nat.zero_add, ← four_pow]
    exact hlt)
  rw [Nat.zero_mul, Nat.zero_mul, Nat.sub_zero] at hloop
  unfold plp_sqrt_q32_fixed
  rw [if_neg (by omega), hstart, hskip]
  exact hloop

end Root

/-! ## Section 2: The kernel -/

/-- The arguments of the kernel. -/
structure LayerNorm where
  data_in : Nat
  data_out : Nat
  weight : Nat
  bias : Nat
  input_offset : Int
  size : Nat
  lastDimLength : Nat
  log2D : Nat

namespace LayerNorm

variable (x : LayerNorm)

/-- `data_in[j + i * lastDimLength]` -/
def data (mem : Mem) (i j : Nat) : Int := loadInt mem (x.data_in + (j + i * x.lastDimLength)) 1

def mean (mem : Mem) (i : Nat) : Int :=
  let sum := (forStep 0 x.lastDimLength 1).foldl
    (fun sum j => int64 (sum + int32 (x.data mem i j + x.input_offset))) 0
  int32 (sum.tdiv x.lastDimLength)

/-- `(int32_t)data_in[j + i * lastDimLength] + input_offset - mean` -/
def normalized (mem : Mem) (i j : Nat) : Int :=
  int32 (int32 (x.data mem i j + x.input_offset) - x.mean mem i)

def variance (mem : Mem) (i : Nat) : Int :=
  let sum := (forStep 0 x.lastDimLength 1).foldl
    (fun sum j => int64 (sum + int64 (x.normalized mem i j * x.normalized mem i j))) 0
  int32 (int32 (sum.tdiv x.lastDimLength) + 1)

def output (mem : Mem) (i j : Nat) : Int :=
  let std := plp_sqrt_q32_fixed (x.variance mem i)
  let scaled := int64 ((int64 (x.normalized mem i j * loadInt mem (x.weight + 4 * j) 4)).tdiv std +
    loadInt mem (x.bias + 4 * j) 4)
  let output := int32 (scaled >>> x.log2D)
  let output := if output > 127 then 127 else output
  if output < -128 then -128 else output

/-- The stores of a core, row after row. -/
def SnitchLayernorm_s8_s8 (numThreads core_id : Nat) : List Store :=
  let numRows := x.size / x.lastDimLength
  let start := chunkStart numRows numThreads core_id
  let stop := chunkStop numRows numThreads core_id
  (forStep start stop 1).flatMap fun i =>
    (forStep 0 x.lastDimLength 1).map fun j =>
      ⟨x.data_out + (j + i * x.lastDimLength), 1, fun mem => bits 1 (x.output mem i j)⟩

def test {numThreads : Nat} (expected_output zero_memory : Nat) (r : Metrics numThreads) :
    KernelTest numThreads where
  output := x.data_out
  expected := expected_output
  zero_memory := zero_memory
  width := 1
  count := x.size
  cleared := x.size
  kernel k := x.SnitchLayernorm_s8_s8 numThreads k.val
  metrics := r

/-! ## Section 3: The reference model -/

section Reference

open Finset

def row (mem : Mem) (i j : Nat) : Int := x.data mem i j + x.input_offset

def rowMean (mem : Mem) (i : Nat) : Int :=
  (∑ j ∈ range x.lastDimLength, x.row mem i j).tdiv x.lastDimLength

def diff (mem : Mem) (i j : Nat) : Int := x.row mem i j - x.rowMean mem i

def rowVariance (mem : Mem) (i : Nat) : Int :=
  (∑ j ∈ range x.lastDimLength, x.diff mem i j * x.diff mem i j).tdiv x.lastDimLength + 1

/-- An element of the output, with the integer part of the square root and
    integers that do not overflow. -/
def layernorm_s8_s8 (mem : Mem) (i j : Nat) : Int :=
  let std := (Nat.sqrt (x.rowVariance mem i).toNat : Int)
  let scaled := (x.diff mem i j * loadInt mem (x.weight + 4 * j) 4).tdiv std +
    loadInt mem (x.bias + 4 * j) 4
  min 127 (max (-128) (scaled >>> x.log2D))

end Reference

/-- What the kernel relies on: whole rows, an offset that leaves room for a
    byte, and weights and biases whose shifted sum fits into 32 bits. -/
structure Placed (x : LayerNorm) (mem : Mem) : Prop where
  positive : 0 < x.lastDimLength
  length : x.lastDimLength < 2 ^ 31
  rows : x.lastDimLength ∣ x.size
  offset_lo : -2 ^ 31 + 128 ≤ x.input_offset
  offset_hi : x.input_offset ≤ 2 ^ 31 - 128
  small : ∀ j, j < x.lastDimLength → 255 * (loadInt mem (x.weight + 4 * j) 4).natAbs +
    (loadInt mem (x.bias + 4 * j) 4).natAbs < 2 ^ (31 + x.log2D)
  apart_in : Apart x.data_out x.size x.data_in x.size
  apart_weight : Apart x.data_out x.size x.weight (4 * x.lastDimLength)
  apart_bias : Apart x.data_out x.size x.bias (4 * x.lastDimLength)

variable {x} {expected_output zero_memory numThreads : Nat} {r : Metrics numThreads} {mem : Mem}
  {i j : Nat}

theorem row_between (mem : Mem) (i j : Nat) :
    x.input_offset - 128 ≤ x.row mem i j ∧ x.row mem i j ≤ x.input_offset + 127 := by
  have hbyte := loadInt_byte mem (x.data_in + (j + i * x.lastDimLength))
  unfold row data
  omega

theorem offset_eq (hx : x.Placed mem) :
    int32 (x.data mem i j + x.input_offset) = x.row mem i j := by
  have hrow := row_between (x := x) mem i j
  have hlo := hx.offset_lo
  have hhi := hx.offset_hi
  exact int32_of_range (v := x.row mem i j) (by omega) (by omega)

theorem rowMean_between (hx : x.Placed mem) (i : Nat) :
    x.input_offset - 128 ≤ x.rowMean mem i ∧ x.rowMean mem i ≤ x.input_offset + 127 :=
  mean_between hx.positive fun j _ => row_between mem i j

theorem mean_eq (hx : x.Placed mem) : x.mean mem i = x.rowMean mem i := by
  have hlo := hx.offset_lo
  have hhi := hx.offset_hi
  have hmean := rowMean_between hx i
  have hsum := foldl_int64 (x.row mem i) x.lastDimLength 0
  have hfits : int64 (∑ j ∈ Finset.range x.lastDimLength, x.row mem i j) =
      ∑ j ∈ Finset.range x.lastDimLength, x.row mem i j := by
    apply int64_sum hx.length
    intro j _
    have hrow := row_between (x := x) mem i j
    omega
  rw [Int.zero_add, hfits] at hsum
  unfold mean
  simp only [offset_eq hx]
  have hzero : int64 0 = 0 := rfl
  rw [hzero] at hsum
  rw [hsum]
  exact int32_of_range (v := x.rowMean mem i) (by omega) (by omega)

theorem diff_between (hx : x.Placed mem) (i j : Nat) : (x.diff mem i j).natAbs ≤ 255 := by
  have hrow := row_between (x := x) mem i j
  have hmean := rowMean_between hx i
  unfold diff
  omega

theorem normalized_eq (hx : x.Placed mem) : x.normalized mem i j = x.diff mem i j := by
  have hdiff := diff_between hx i j
  unfold normalized
  rw [offset_eq hx, mean_eq hx]
  exact int32_of_range (v := x.diff mem i j) (by omega) (by omega)

theorem square_between (hx : x.Placed mem) (i j : Nat) :
    0 ≤ x.diff mem i j * x.diff mem i j ∧ x.diff mem i j * x.diff mem i j ≤ 255 * 255 := by
  have habs := Nat.mul_le_mul (diff_between hx i j) (diff_between hx i j)
  rw [← Int.natAbs_mul] at habs
  have hnonneg := mul_self_nonneg (x.diff mem i j)
  omega

theorem rowVariance_between (hx : x.Placed mem) (i : Nat) :
    1 ≤ x.rowVariance mem i ∧ x.rowVariance mem i ≤ 255 * 255 + 1 := by
  have hmean := mean_between hx.positive fun j _ => square_between hx i j
  unfold rowVariance
  omega

theorem variance_eq (hx : x.Placed mem) : x.variance mem i = x.rowVariance mem i := by
  have hvariance := rowVariance_between hx i
  have hsquare : ∀ j, int64 (x.diff mem i j * x.diff mem i j) =
      x.diff mem i j * x.diff mem i j := by
    intro j
    have hbetween := square_between hx i j
    exact int64_of_range (by omega) (by omega)
  have hsum := foldl_int64 (fun j => x.diff mem i j * x.diff mem i j) x.lastDimLength 0
  have hfits : int64 (∑ j ∈ Finset.range x.lastDimLength, x.diff mem i j * x.diff mem i j) =
      ∑ j ∈ Finset.range x.lastDimLength, x.diff mem i j * x.diff mem i j := by
    apply int64_sum hx.length
    intro j _
    have hbetween := square_between hx i j
    omega
  have hzero : int64 0 = 0 := rfl
  rw [Int.zero_add, hfits, hzero] at hsum
  unfold variance
  simp only [normalized_eq hx, hsquare]
  rw [hsum]
  unfold rowVariance at hvariance ⊢
  rw [int32_of_range (v := Int.tdiv _ _) (by omega) (by omega),
    int32_of_range (by omega) (by omega)]

theorem std_eq (hx : x.Placed mem) : plp_sqrt_q32_fixed (x.variance mem i) =
    (Nat.sqrt (x.rowVariance mem i).toNat : Int) := by
  have hvariance := rowVariance_between hx i
  have hcast : x.rowVariance mem i = ((x.rowVariance mem i).toNat : Int) := by omega
  rw [variance_eq hx]
  conv => lhs; rw [hcast]
  exact plp_sqrt_eq (by omega) (by omega)

/-- **The elements**: in spite of the wrapped integers the kernel computes
    what the reference model does. -/
theorem output_eq (hx : x.Placed mem) (hj : j < x.lastDimLength) :
    x.output mem i j = x.layernorm_s8_s8 mem i j := by
  have hdiff := diff_between hx i j
  have hsmall := hx.small j hj
  have hweight := loadInt_word mem (x.weight + 4 * j)
  have hbias := loadInt_word mem (x.bias + 4 * j)
  have hproduct : (x.diff mem i j * loadInt mem (x.weight + 4 * j) 4).natAbs ≤
      255 * (loadInt mem (x.weight + 4 * j) 4).natAbs := by
    rw [Int.natAbs_mul]
    exact Nat.mul_le_mul_right _ hdiff
  unfold output layernorm_s8_s8
  dsimp only
  rw [std_eq hx, normalized_eq hx]
  generalize loadInt mem (x.weight + 4 * j) 4 = w at *
  generalize loadInt mem (x.bias + 4 * j) 4 = b at *
  generalize x.diff mem i j * w = p at *
  generalize ((Nat.sqrt (x.rowVariance mem i).toNat : Nat) : Int) = std
  have hquotient := Int.natAbs_tdiv_le_natAbs p std
  rw [int64_of_range (v := p) (by omega) (by omega)]
  generalize p.tdiv std = q at *
  rw [int64_of_range (v := q + b) (by omega) (by omega), int32_shiftRight (by omega)]
  split_ifs <;> omega

/-! ## Section 4: The test -/

theorem mem_kernel {core_id : Nat} {s : Store} :
    s ∈ x.SnitchLayernorm_s8_s8 numThreads core_id ↔
      ∃ i j, (chunkStart (x.size / x.lastDimLength) numThreads core_id ≤ i ∧
        i < chunkStop (x.size / x.lastDimLength) numThreads core_id) ∧ j < x.lastDimLength ∧
          s = ⟨x.data_out + (i * x.lastDimLength + j), 1,
            fun mem => bits 1 (x.output mem i j)⟩ := by
  unfold SnitchLayernorm_s8_s8
  dsimp only
  rw [List.mem_flatMap]
  constructor
  · rintro ⟨i, hi, hs⟩
    obtain ⟨j, hj, rfl⟩ := List.mem_map.mp hs
    rw [Nat.add_comm j]
    exact ⟨i, j, mem_forStep_one.mp hi, (mem_forStep_one.mp hj).2, rfl⟩
  · rintro ⟨i, j, hi, hj, rfl⟩
    rw [Nat.add_comm (i * x.lastDimLength)]
    exact ⟨i, mem_forStep_one.mpr hi,
      List.mem_map.mpr ⟨j, mem_forStep_one.mpr ⟨Nat.zero_le j, hj⟩, rfl⟩⟩

section Frame

variable {m : Mem × Nat}

theorem element_lt (hx : x.Placed mem) (hi : i < x.size / x.lastDimLength)
    (hj : j < x.lastDimLength) : i * x.lastDimLength + j < x.size := by
  have hrows : x.size / x.lastDimLength * x.lastDimLength = x.size := Nat.div_mul_cancel hx.rows
  have hlt := index_lt hi hj
  rwa [hrows] at hlt

/-- The rows, the weights and the biases are what they were at the start. -/
theorem row_frame (hx : x.Placed mem)
    (hm : (x.test expected_output zero_memory r).Frame mem m)
    (hi : i < x.size / x.lastDimLength) (hj : j < x.lastDimLength) :
    x.row m.1 i j = x.row mem i j := by
  have hlt := element_lt hx hi hj
  unfold row data
  rw [hm.loadInt_eq_of_bytes rfl hx.apart_in (by omega) (by omega)]

theorem weight_frame (hx : x.Placed mem)
    (hm : (x.test expected_output zero_memory r).Frame mem m) (hj : j < x.lastDimLength) :
    loadInt m.1 (x.weight + 4 * j) 4 = loadInt mem (x.weight + 4 * j) 4 :=
  hm.loadInt_eq_of_bytes rfl hx.apart_weight (by omega) (by omega)

theorem bias_frame (hx : x.Placed mem)
    (hm : (x.test expected_output zero_memory r).Frame mem m) (hj : j < x.lastDimLength) :
    loadInt m.1 (x.bias + 4 * j) 4 = loadInt mem (x.bias + 4 * j) 4 :=
  hm.loadInt_eq_of_bytes rfl hx.apart_bias (by omega) (by omega)

theorem layernorm_frame (hx : x.Placed mem)
    (hm : (x.test expected_output zero_memory r).Frame mem m)
    (hi : i < x.size / x.lastDimLength) (hj : j < x.lastDimLength) :
    x.layernorm_s8_s8 m.1 i j = x.layernorm_s8_s8 mem i j := by
  have hmean : x.rowMean m.1 i = x.rowMean mem i := by
    unfold rowMean
    rw [Finset.sum_congr rfl fun j hj => row_frame hx hm hi (Finset.mem_range.mp hj)]
  have hdiff : ∀ j, j < x.lastDimLength → x.diff m.1 i j = x.diff mem i j := by
    intro j hj
    unfold diff
    rw [row_frame hx hm hi hj, hmean]
  have hvariance : x.rowVariance m.1 i = x.rowVariance mem i := by
    unfold rowVariance
    rw [Finset.sum_congr rfl fun j hj => by rw [hdiff j (Finset.mem_range.mp hj)]]
  unfold layernorm_s8_s8
  rw [hvariance, hdiff j hj, weight_frame hx hm hj, bias_frame hx hm hj]

theorem Placed.frame (hx : x.Placed mem)
    (hm : (x.test expected_output zero_memory r).Frame mem m) : x.Placed m.1 := by
  refine { hx with small := ?_ }
  intro j hj
  rw [weight_frame hx hm hj, bias_frame hx hm hj]
  exact hx.small j hj

end Frame

theorem computes (hx : x.Placed mem) (hthreads : 0 < numThreads) :
    (x.test expected_output zero_memory r).Computes mem (fun i =>
      bits 1 (x.layernorm_s8_s8 mem (i / x.lastDimLength) (i % x.lastDimLength))) := by
  have hrows : x.size / x.lastDimLength * x.lastDimLength = x.size := Nat.div_mul_cancel hx.rows
  have helement : ∀ i j, j < x.lastDimLength →
      (x.test expected_output zero_memory r).storeElement (i * x.lastDimLength + j)
        (fun mem => bits 1 (x.output mem ((i * x.lastDimLength + j) / x.lastDimLength)
          ((i * x.lastDimLength + j) % x.lastDimLength))) =
        ⟨x.data_out + (i * x.lastDimLength + j), 1, fun mem => bits 1 (x.output mem i j)⟩ := by
    intro i j hj
    rw [index_div hj, index_mod hj]
    exact KernelTest.storeElement_byte rfl _ _
  apply KernelTest.computes_of_elements
    (v := fun i mem => bits 1 (x.output mem (i / x.lastDimLength) (i % x.lastDimLength)))
  · intro i _
    exact bits_lt _ _
  · intro i hi m hm
    have hi' : i < x.size / x.lastDimLength * x.lastDimLength := by
      rw [hrows]
      exact hi
    rw [output_eq (hx.frame hm) (column_lt hi'), layernorm_frame hx hm (row_lt hi') (column_lt hi')]
  · intro k hk s hs
    obtain ⟨i, j, ⟨_, hhi⟩, hj, rfl⟩ := mem_kernel.mp hs
    have hrow := Nat.lt_of_lt_of_le hhi (chunkStop_le _ hk)
    exact ⟨i * x.lastDimLength + j, element_lt hx hrow hj, (helement i j hj).symm⟩
  · intro i hi
    have hi' : i < x.size / x.lastDimLength * x.lastDimLength := by
      rw [hrows]
      exact hi
    obtain ⟨k, hk, hin⟩ := chunks_cover hthreads (row_lt hi')
    refine ⟨⟨k, by omega⟩, hk, ?_⟩
    have hstore := helement (i / x.lastDimLength) (i % x.lastDimLength) (column_lt hi')
    rw [Nat.div_add_mod' i x.lastDimLength] at hstore
    rw [hstore]
    apply mem_kernel.mpr
    refine ⟨_, _, hin, column_lt hi', ?_⟩
    rw [Nat.div_add_mod' i x.lastDimLength]

/-- **The test of the layer normalisation**: every row is normalised as the
    reference model does it, with the integer part of the square root. -/
theorem ilayernorm_l1_test [rt : Runtime] (hx : x.Placed mem) (hthreads : 0 < numThreads)
    (hexpected : Apart x.data_out x.size expected_output x.size)
    (hr : r.Placed x.data_out expected_output x.size)
    {repetitions : Nat} (hrep : 0 < repetitions) :
    (x.test expected_output zero_memory r).Tests
      ((x.test expected_output zero_memory r).main repetitions) mem
      (fun i => bits 1 (x.layernorm_s8_s8 mem (i / x.lastDimLength) (i % x.lastDimLength))) := by
  obtain rfl := rt.eq_modelled
  exact KernelTest.main_tests (KernelTest.placed_of_bytes rfl hexpected le_rfl hr)
    (computes hx hthreads) hrep

/-- Three rows of two elements, on two compute cores. -/
def threeRows : LayerNorm := ⟨0, 32, 8, 16, 3, 6, 2, 1⟩

/-- Their elements, the weights 40 and -25, and the biases 6 and -9. -/
def threeRowsMem : Mem := fun a => [10, 20, 255, 128, 127, 1, 0, 0, 40, 0, 0, 0, 231, 255, 255, 255,
  6, 0, 0, 0, 247, 255, 255, 255].getD a 0

theorem ilayernorm_l1_test_threeRows : (threeRows.test 64 128 (measuredAt 192 2)).Tests
    ((threeRows.test 64 128 (measuredAt 192 2)).main 3) threeRowsMem
      (fun i => bits 1 (threeRows.layernorm_s8_s8 threeRowsMem (i / 2) (i % 2))) := by
  apply ilayernorm_l1_test
  · exact ⟨by decide, by decide, by decide, by decide, by decide, by decide, .inr (by decide),
      .inr (by decide), .inr (by decide)⟩
  · decide
  · exact .inl (by decide)
  · exact measuredAt_placed 2 (by decide) (by decide)
  · decide

end LayerNorm

end Snrt
