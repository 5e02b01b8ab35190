import ChimeraSdk.Framework.Transfers
import Mathlib.Algebra.BigOperators.Intervals

/-! # Integers and Loops of C

    Signed integers of a fixed width wrap around, as they do on the machine.
    A chain of wrapped additions wraps once: what it leaves is the wrapped
    sum.  A loop with a stride is the list of its indices. -/

namespace CInt

open ByteMemory

/-! ## Section 1: Integers -/

def int8 (v : Int) : Int := v.bmod (2 ^ 8)

def int16 (v : Int) : Int := v.bmod (2 ^ 16)

def int32 (v : Int) : Int := v.bmod (2 ^ 32)

def int64 (v : Int) : Int := v.bmod (2 ^ 64)

/-- The `n` bytes of `v`, as a number. -/
def bits (n : Nat) (v : Int) : Nat := (v % (256 ^ n : Nat)).toNat

/-- The signed integer of `n` bytes at `a`. -/
def loadInt (mem : Mem) (a n : Nat) : Int := Int.bmod (load mem a n) (256 ^ n)

variable {v w : Int}

theorem int8_of_range (hlo : -2 ^ 7 ≤ v) (hhi : v < 2 ^ 7) : int8 v = v :=
  Int.bmod_eq_of_le (by omega) (by omega)

theorem int16_of_range (hlo : -2 ^ 15 ≤ v) (hhi : v < 2 ^ 15) : int16 v = v :=
  Int.bmod_eq_of_le (by omega) (by omega)

theorem int32_of_range (hlo : -2 ^ 31 ≤ v) (hhi : v < 2 ^ 31) : int32 v = v :=
  Int.bmod_eq_of_le (by omega) (by omega)

theorem int64_of_range (hlo : -2 ^ 63 ≤ v) (hhi : v < 2 ^ 63) : int64 v = v :=
  Int.bmod_eq_of_le (by omega) (by omega)

theorem int32_add_int32 : int32 (int32 v + w) = int32 (v + w) := Int.bmod_add_bmod

theorem bits_lt (n : Nat) (v : Int) : bits n v < 256 ^ n := by
  have hpos : (0 : Int) < (256 ^ n : Nat) := by exact_mod_cast Nat.pow_pos (by omega)
  have hlt := Int.emod_lt_of_pos v hpos
  have hnonneg := Int.emod_nonneg v hpos.ne'
  unfold bits
  omega

theorem bits_bmod (n : Nat) (v : Int) : bits n (v.bmod (256 ^ n)) = bits n v := by
  unfold bits
  rw [Int.bmod_emod]

theorem bits_int32 (v : Int) : bits 4 (int32 v) = bits 4 v := bits_bmod 4 v

theorem loadInt_congr {mem mem' : Mem} {a n : Nat}
    (h : ∀ i, a ≤ i → i < a + n → mem' i = mem i) : loadInt mem' a n = loadInt mem a n := by
  unfold loadInt
  rw [load_congr h]

theorem loadInt_byte (mem : Mem) (a : Nat) : -128 ≤ loadInt mem a 1 ∧ loadInt mem a 1 ≤ 127 := by
  have hlo := Int.le_bmod (x := load mem a 1) (m := 256 ^ 1) (by decide)
  have hhi := Int.bmod_lt (x := load mem a 1) (m := 256 ^ 1) (by decide)
  unfold loadInt
  omega

theorem loadInt_word (mem : Mem) (a : Nat) : (loadInt mem a 4).natAbs ≤ 2 ^ 31 := by
  have hlo := Int.le_bmod (x := load mem a 4) (m := 256 ^ 4) (by decide)
  have hhi := Int.bmod_lt (x := load mem a 4) (m := 256 ^ 4) (by decide)
  unfold loadInt
  omega

/-- A shift to the right that leaves 32 bits. -/
theorem int32_shiftRight {l : Nat} (h : v.natAbs < 2 ^ (31 + l)) : int32 (v >>> l) = v >>> l := by
  have hpos : 0 < 2 ^ l := Nat.pow_pos (by omega)
  rw [Nat.pow_add] at h
  rw [Int.shiftRight_eq_div_pow]
  generalize 2 ^ l = d at *
  have hpos' : (0 : Int) < (d : Int) := by exact_mod_cast hpos
  apply int32_of_range
  · apply Int.le_ediv_of_mul_le hpos'
    omega
  · apply Int.ediv_lt_of_lt_mul hpos'
    omega

/-! ## Section 2: Packed bytes -/

/-- A byte of a word, cut out with a mask. -/
theorem masked_byte (p k : Nat) : (p &&& (255 <<< k)) >>> k = p / 2 ^ k % 256 := by
  rw [Nat.shiftRight_and_distrib, Nat.shiftLeft_shiftRight, Nat.shiftRight_eq_div_pow]
  exact Nat.and_two_pow_sub_one_eq_mod _ 8

theorem load_byte {mem : Mem} {a n j : Nat} (hj : j < n) :
    load mem a n / 256 ^ j % 256 = (mem (a + j)).toNat := by
  induction n generalizing a j with
  | zero => omega
  | succ n ih =>
    have hbyte := (mem a).toNat_lt
    rw [load]
    cases j with
    | zero =>
      rw [Nat.pow_zero, Nat.div_one, Nat.add_mul_mod_self_left, Nat.add_zero]
      exact Nat.mod_eq_of_lt hbyte
    | succ j =>
      have hshift : ((mem a).toNat + 256 * load mem (a + 1) n) / 256 =
        load mem (a + 1) n := by omega
      have ihj := ih (a := a + 1) (j := j) (by omega)
      rw [Nat.pow_succ', ← Nat.div_div_eq_div_mul, hshift, ihj]
      congr 2
      omega

/-- The byte `j` of a word, read as a signed byte. -/
theorem int8_load {mem : Mem} {a n j : Nat} (hj : j < n) :
    int8 (load mem a n / 256 ^ j % 256 : Nat) = loadInt mem (a + j) 1 := by
  rw [load_byte hj]
  rfl

/-- The four bytes of a word of 32 bits, cut out one by one. -/
theorem unpacked_bytes (mem : Mem) (a : Nat) :
    int8 (load mem a 4 &&& 0x000000FF : Nat) = loadInt mem (a + 0) 1 ∧
    int8 ((load mem a 4 &&& 0x0000FF00) >>> 8 : Nat) = loadInt mem (a + 1) 1 ∧
    int8 ((load mem a 4 &&& 0x00FF0000) >>> 16 : Nat) = loadInt mem (a + 2) 1 ∧
    int8 (load mem a 4 >>> 24 : Nat) = loadInt mem (a + 3) 1 := by
  have hlt := load_lt mem a 4
  refine ⟨?_, ?_, ?_, ?_⟩
  · rw [← int8_load (by omega : 0 < 4), Nat.pow_zero, Nat.div_one]
    exact congrArg (fun v : Nat => int8 v) (Nat.and_two_pow_sub_one_eq_mod _ 8)
  · rw [← int8_load (by omega : 1 < 4)]
    exact congrArg (fun v : Nat => int8 v) (masked_byte _ 8)
  · rw [← int8_load (by omega : 2 < 4)]
    exact congrArg (fun v : Nat => int8 v) (masked_byte _ 16)
  · -- the highest byte needs no mask
    rw [← int8_load (by omega : 3 < 4), Nat.shiftRight_eq_div_pow, Nat.mod_eq_of_lt (by omega)]
    rfl

/-- The bytes of a word, put together with shifts. -/
theorem packed_bytes {b₀ b₁ b₂ b₃ : Nat} (h₀ : b₀ < 256) (h₁ : b₁ < 256) (h₂ : b₂ < 256) :
    (b₀ <<< 0) ||| (b₁ <<< 8) ||| (b₂ <<< 16) ||| (b₃ <<< 24) =
      b₀ + 256 * (b₁ + 256 * (b₂ + 256 * b₃)) := by
  have hor : ∀ {lo k : Nat} (hi : Nat), lo < 2 ^ k → lo ||| (hi <<< k) = lo + 2 ^ k * hi := by
    intro lo k hi hlt
    rw [Nat.or_comm, ← Nat.shiftLeft_add_eq_or_of_lt hlt, Nat.shiftLeft_eq, Nat.mul_comm,
      Nat.add_comm]
  rw [Nat.shiftLeft_zero, hor b₁ (by omega), hor b₂ (by omega), hor b₃ (by omega)]
  omega

/-! ## Section 3: Loops -/

/-- The values of `i` in `for (i = first; i < bound; i += stride)`. -/
def forStep (first bound stride : Nat) : List Nat :=
  List.range' first ((bound - first + (stride - 1)) / stride) stride

/-- The loop ends when `i` has reached the bound, -/
theorem forStep_of_le {first bound stride : Nat} (hs : 0 < stride) (h : bound ≤ first) :
    forStep first bound stride = [] := by
  have hzero : (bound - first + (stride - 1)) / stride = 0 := Nat.div_eq_of_lt (by omega)
  unfold forStep
  rw [hzero]
  rfl

/-- and goes on with the next `i` otherwise. -/
theorem forStep_of_lt {first bound stride : Nat} (hs : 0 < stride) (h : first < bound) :
    forStep first bound stride = first :: forStep (first + stride) bound stride := by
  have hcount : (bound - first + (stride - 1)) / stride =
      (bound - (first + stride) + (stride - 1)) / stride + 1 := by
    rw [← Nat.add_div_right _ hs]
    by_cases hle : first + stride ≤ bound
    · congr 1
      omega
    · -- one round is left
      have hrest : bound - (first + stride) + (stride - 1) + stride =
        stride - 1 + stride := by omega
      rw [hrest, Nat.add_div_right _ hs, Nat.div_eq_of_lt (by omega : stride - 1 < stride),
        show bound - first + (stride - 1) = (bound - first - 1) + stride by omega,
        Nat.add_div_right _ hs, Nat.div_eq_of_lt (by omega)]
  unfold forStep
  rw [hcount, List.range'_succ]

theorem mem_forStep {first bound stride i : Nat} (hs : 0 < stride) :
    i ∈ forStep first bound stride ↔ ∃ q, i = first + stride * q ∧ i < bound := by
  induction hn : bound - first using Nat.strongRecOn generalizing first with
  | ind n ih =>
    by_cases hlt : first < bound
    · rw [forStep_of_lt hs hlt, List.mem_cons, ih _ (by omega) rfl]
      constructor
      · rintro (rfl | ⟨q, rfl, hi⟩)
        · exact ⟨0, by omega, hlt⟩
        · exact ⟨q + 1, by rw [Nat.mul_succ]; omega, hi⟩
      · rintro ⟨q, rfl, hi⟩
        match q with
        | 0 => exact .inl rfl
        | q + 1 => exact .inr ⟨q, by rw [Nat.mul_succ]; omega, hi⟩
    · rw [forStep_of_le hs (by omega)]
      refine ⟨fun h => absurd h List.not_mem_nil, ?_⟩
      rintro ⟨q, rfl, hi⟩
      omega

theorem forStep_one (first bound : Nat) :
    forStep first bound 1 = List.range' first (bound - first) := by
  unfold forStep
  rw [Nat.sub_self, Nat.add_zero, Nat.div_one]

theorem mem_forStep_one {first bound i : Nat} :
    i ∈ forStep first bound 1 ↔ first ≤ i ∧ i < bound := by
  rw [forStep_one, List.mem_range'_1]
  omega

/-- A loop next to a counter of its rounds. -/
theorem mem_zipIdx_forStep_one {first bound i n : Nat} :
    (i, n) ∈ (forStep first bound 1).zipIdx ↔ i = first + n ∧ i < bound := by
  rw [List.mk_mem_zipIdx_iff_getElem?, forStep_one]
  by_cases hn : n < bound - first
  · rw [List.getElem?_range' hn, Nat.one_mul, Option.some_inj]
    omega
  · rw [List.getElem?_eq_none (by rw [List.length_range']; omega)]
    constructor
    · intro h
      exact absurd h (Option.some_ne_none i).symm
    · intro ⟨h, h'⟩
      omega

/-- Two nested loops: the inner index of the round `p`. -/
theorem getElem?_nested {α : Type} (rows : List α) (columns : Nat) {p : Nat}
    (hp : p < rows.length * columns) :
    (rows.flatMap fun _ => forStep 0 columns 1)[p]? = some (p % columns) := by
  induction rows generalizing p with
  | nil =>
    rw [List.length_nil, Nat.zero_mul] at hp
    omega
  | cons r rows ih =>
    rw [List.length_cons, Nat.succ_mul] at hp
    have hlen : (forStep 0 columns 1).length = columns := by
      rw [forStep_one, List.length_range', Nat.sub_zero]
    rw [List.flatMap_cons]
    by_cases hfirst : p < columns
    · rw [List.getElem?_append_left (by omega), forStep_one, Nat.sub_zero,
        List.getElem?_range' hfirst, Nat.mod_eq_of_lt hfirst, Nat.zero_add, Nat.one_mul]
    · rw [List.getElem?_append_right (by omega), hlen, ih (by omega)]
      congr 1
      exact (Nat.mod_eq_sub_mod (by omega)).symm

theorem length_nested {α : Type} (rows : List α) (columns : Nat) :
    (rows.flatMap fun _ => forStep 0 columns 1).length = rows.length * columns := by
  rw [List.length_flatMap, List.map_const', List.sum_replicate_nat, forStep_one,
    List.length_range', Nat.sub_zero]

/-- Two nested loops next to a counter of their rounds: the inner index is
    the counter modulo the columns. -/
theorem mem_counted {first bound columns i p : Nat} (hle : first ≤ bound) :
    (i, p) ∈ ((forStep first bound 1).flatMap fun _ => forStep 0 columns 1).zipIdx
        (first * columns) ↔
      i = p % columns ∧ first * columns ≤ p ∧ p < bound * columns := by
  have hrows : (forStep first bound 1).length * columns = bound * columns - first * columns := by
    rw [forStep_one, List.length_range', Nat.sub_mul]
  have hmul : first * columns ≤ bound * columns := Nat.mul_le_mul_right _ hle
  rw [List.mk_mem_zipIdx_iff_le_and_getElem?_sub]
  by_cases hin : first * columns ≤ p ∧ p < bound * columns
  · have hmod : (p - first * columns) % columns = p % columns := by
      rw [Nat.mul_comm, Nat.sub_mul_mod (by rw [Nat.mul_comm]; exact hin.1)]
    rw [getElem?_nested _ _ (by omega), hmod]
    constructor
    · intro ⟨_, h⟩
      exact ⟨(Option.some.inj h).symm, hin⟩
    · intro ⟨h, _⟩
      exact ⟨hin.1, congrArg some h.symm⟩
  · constructor
    · intro ⟨hlo, h⟩
      obtain ⟨hlt, _⟩ := List.getElem?_eq_some_iff.mp h
      rw [length_nested, hrows] at hlt
      omega
    · intro ⟨_, h⟩
      exact absurd h hin

section Index

variable {rows columns i j : Nat}

/-- The element `j` of the row `i` lies in the array, -/
theorem index_lt (hi : i < rows) (hj : j < columns) : i * columns + j < rows * columns := by
  have hmul : (i + 1) * columns ≤ rows * columns := Nat.mul_le_mul_right _ hi
  rw [Nat.succ_mul] at hmul
  omega

/-- and its index gives back the row -/
theorem index_div (hj : j < columns) : (i * columns + j) / columns = i := by
  rw [Nat.mul_comm, Nat.mul_add_div (by omega), Nat.div_eq_of_lt hj, Nat.add_zero]

/-- and the column. -/
theorem index_mod (hj : j < columns) : (i * columns + j) % columns = j := by
  rw [Nat.mul_comm, Nat.mul_add_mod, Nat.mod_eq_of_lt hj]

theorem row_lt (hi : i < rows * columns) : i / columns < rows :=
  Nat.div_lt_of_lt_mul (by rwa [Nat.mul_comm])

theorem column_lt (hi : i < rows * columns) : i % columns < columns := by
  apply Nat.mod_lt
  by_contra hzero
  rw [Nat.eq_zero_of_not_pos hzero, Nat.mul_zero] at hi
  omega

/-- The last element is the one in the last row and the last column. -/
theorem index_last (hi : i < rows) (hj : j < columns) :
    i * columns + j + 1 = rows * columns ↔ i = rows - 1 ∧ j = columns - 1 := by
  obtain ⟨r, rfl⟩ := Nat.exists_eq_succ_of_ne_zero (Nat.ne_zero_of_lt hi)
  have hrows : (r + 1) * columns = r * columns + columns := Nat.succ_mul ..
  rw [Nat.succ_eq_add_one, hrows]
  by_cases hlast : i = r
  · rw [hlast]
    omega
  · have hmul : (i + 1) * columns ≤ r * columns := Nat.mul_le_mul_right _ (by omega)
    rw [Nat.succ_mul] at hmul
    omega

/-- The row of the next element, -/
theorem next_div (n : Nat) (hpos : 0 < columns) :
    (n + 1) / columns = if n % columns = columns - 1 then n / columns + 1 else n / columns := by
  have hmod := Nat.mod_lt n hpos
  have hn := Nat.div_add_mod' n columns
  by_cases hlast : n % columns = columns - 1
  · have hnext : n + 1 = (n / columns + 1) * columns := by
      rw [Nat.succ_mul]
      omega
    rw [if_pos hlast, hnext, Nat.mul_div_cancel _ hpos]
  · have hnext : n + 1 = n / columns * columns + (n % columns + 1) := by omega
    rw [if_neg hlast, hnext, index_div (by omega)]

/-- and its column. -/
theorem next_mod (n : Nat) (hpos : 0 < columns) :
    (n + 1) % columns = if n % columns = columns - 1 then 0 else n % columns + 1 := by
  have hmod := Nat.mod_lt n hpos
  have hn := Nat.div_add_mod' n columns
  by_cases hlast : n % columns = columns - 1
  · have hnext : n + 1 = (n / columns + 1) * columns := by
      rw [Nat.succ_mul]
      omega
    rw [if_pos hlast, hnext, Nat.mul_mod_left]
  · have hnext : n + 1 = n / columns * columns + (n % columns + 1) := by omega
    rw [if_neg hlast, hnext, index_mod (by omega)]

end Index

/-- Two nested loops with a state, as one. -/
theorem foldl_nested {α : Type} (f : Nat → Nat → α → α) (rows columns : Nat) (a : α) :
    (List.range rows).foldl (fun a i => (List.range columns).foldl (fun a j => f i j a) a) a =
      (List.range (rows * columns)).foldl (fun a t => f (t / columns) (t % columns) a) a := by
  induction rows with
  | zero =>
    rw [Nat.zero_mul]
    rfl
  | succ rows ih =>
    have hrow : ∀ (n : Nat) (a : α), n ≤ columns →
        (List.range n).foldl (fun a j => f rows j a) a =
          ((List.range n).map (rows * columns + ·)).foldl
            (fun a t => f (t / columns) (t % columns) a) a := by
      intro n a hn
      rw [List.foldl_map]
      apply List.foldl_ext
      intro a j hj
      have hlt := Nat.lt_of_lt_of_le (List.mem_range.mp hj) hn
      rw [index_div hlt, index_mod hlt]
    rw [List.range_succ, List.foldl_append, ih, Nat.succ_mul, List.range_add, List.foldl_append]
    exact hrow columns _ le_rfl

/-- A loop over the even numbers. -/
theorem forStep_even (n : Nat) : forStep 0 (2 * n) 2 = (List.range n).map (2 * ·) := by
  have hcount : (2 * n - 0 + (2 - 1)) / 2 = n := by omega
  unfold forStep
  rw [hcount]
  clear hcount
  induction n with
  | zero => rfl
  | succ n ih => rw [List.range'_concat, ih, List.range_succ, List.map_append, Nat.zero_add]; rfl

open Finset in
/-- An accumulator that takes two terms a round leaves their wrapped sum. -/
theorem foldl_pairs (f : Nat → Int) (n : Nat) (c : Int) :
    (forStep 0 (2 * n) 2).foldl (fun c k => int32 (int32 (c + f k) + f (k + 1))) (int32 c) =
      int32 (c + ∑ k ∈ range (2 * n), f k) := by
  rw [forStep_even]
  induction n with
  | zero => simp
  | succ n ih =>
    rw [List.range_succ, List.map_append, List.foldl_append, ih]
    show int32 (int32 (int32 _ + f (2 * n)) + f (2 * n + 1)) = _
    rw [int32_add_int32, Int.add_assoc, int32_add_int32, Nat.mul_succ, sum_range_succ,
      sum_range_succ]
    congr 1
    omega

open Finset in
/-- An accumulator of 64 bits leaves the wrapped sum. -/
theorem foldl_int64 (f : Nat → Int) (n : Nat) (c : Int) :
    (forStep 0 n 1).foldl (fun sum j => int64 (sum + f j)) (int64 c) =
      int64 (c + ∑ j ∈ range n, f j) := by
  rw [forStep_one, Nat.sub_zero, ← List.range_eq_range']
  induction n with
  | zero => simp
  | succ n ih =>
    rw [List.range_succ, List.foldl_append, ih, sum_range_succ, ← Int.add_assoc]
    exact Int.bmod_add_bmod

open Finset in
theorem sum_between {f : Nat → Int} {n : Nat} {lo hi : Int}
    (h : ∀ j, j < n → lo ≤ f j ∧ f j ≤ hi) :
    lo * n ≤ ∑ j ∈ range n, f j ∧ ∑ j ∈ range n, f j ≤ hi * n := by
  have hlo := card_nsmul_le_sum (range n) f lo fun j hj => (h j (mem_range.mp hj)).1
  have hhi := sum_le_card_nsmul (range n) f hi fun j hj => (h j (mem_range.mp hj)).2
  rw [card_range, nsmul_eq_mul, mul_comm] at hlo hhi
  exact ⟨hlo, hhi⟩

open Finset in
/-- The truncated mean lies between bounds of the terms. -/
theorem mean_between {f : Nat → Int} {n : Nat} {lo hi : Int} (hn : 0 < n)
    (h : ∀ j, j < n → lo ≤ f j ∧ f j ≤ hi) :
    lo ≤ (∑ j ∈ range n, f j).tdiv n ∧ (∑ j ∈ range n, f j).tdiv n ≤ hi := by
  have hpos : (0 : Int) < n := by exact_mod_cast hn
  obtain ⟨hlo, hhi⟩ := sum_between h
  constructor
  · rw [← Int.mul_tdiv_cancel lo hpos.ne']
    exact Int.tdiv_le_tdiv hpos hlo
  · rw [← Int.mul_tdiv_cancel hi hpos.ne']
    exact Int.tdiv_le_tdiv hpos hhi

open Finset in
/-- A sum of terms of 32 bits fits into 64 bits. -/
theorem int64_sum {f : Nat → Int} {n : Nat} (hn : n < 2 ^ 31)
    (h : ∀ j, j < n → -2 ^ 31 ≤ f j ∧ f j ≤ 2 ^ 31) :
    int64 (∑ j ∈ range n, f j) = ∑ j ∈ range n, f j := by
  obtain ⟨hlo, hhi⟩ := sum_between h
  exact int64_of_range (by omega) (by omega)

end CInt
