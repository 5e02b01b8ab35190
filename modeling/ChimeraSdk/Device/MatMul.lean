import ChimeraSdk.Device.KernelTest

/-! # The Matrix Product on a Cluster

    The product of two matrices of bytes, in tiles of two rows and two
    columns, with the pairs of rows dealt out to the compute cores. -/

open Cluster ByteMemory CInt

namespace Snrt

/-- The arguments of the kernel. -/
structure MatMul where
  pSrcA : Nat
  pSrcB : Nat
  pDstC : Nat
  M : Nat
  N : Nat
  P : Nat

namespace MatMul

variable (x : MatMul)

/-! ## Section 1: The kernel -/

/-- `pSrcA[i * N + k]` -/
def A (mem : Mem) (i k : Nat) : Int := loadInt mem (x.pSrcA + (i * x.N + k)) 1

/-- `pSrcB[k * P + j]` -/
def B (mem : Mem) (k j : Nat) : Int := loadInt mem (x.pSrcB + (k * x.P + j)) 1

/-- The accumulators of a tile. -/
structure Tile where
  c00 : Int
  c01 : Int
  c10 : Int
  c11 : Int

/-- A round of the innermost loop.  The products are of type `int`, which
    holds them. -/
def step (mem : Mem) (i j : Nat) (c : Tile) (k : Nat) : Tile :=
  let val_a00 := x.A mem (i + 0) (k + 0)
  let val_a01 := x.A mem (i + 0) (k + 1)
  let val_a10 := x.A mem (i + 1) (k + 0)
  let val_a11 := x.A mem (i + 1) (k + 1)
  let val_b00 := x.B mem (k + 0) (j + 0)
  let val_b01 := x.B mem (k + 0) (j + 1)
  let val_b10 := x.B mem (k + 1) (j + 0)
  let val_b11 := x.B mem (k + 1) (j + 1)
  { c00 := int32 (int32 (c.c00 + val_a00 * val_b00) + val_a01 * val_b10)
    c01 := int32 (int32 (c.c01 + val_a00 * val_b01) + val_a01 * val_b11)
    c10 := int32 (int32 (c.c10 + val_a10 * val_b00) + val_a11 * val_b10)
    c11 := int32 (int32 (c.c11 + val_a10 * val_b01) + val_a11 * val_b11) }

def tile (mem : Mem) (i j : Nat) : Tile := (forStep 0 x.N 2).foldl (x.step mem i j) ⟨0, 0, 0, 0⟩

/-- `pDstC[i * P + j] = v;` -/
def put (i j : Nat) (v : Mem → Int) : Store :=
  ⟨x.pDstC + 4 * (i * x.P + j), 4, fun mem => bits 4 (v mem)⟩

/-- The stores of a core.  The inputs do not change, and a store reads them
    when it takes place. -/
def MatMul_unrolled_2x2_parallel_s8_rv32im (numThreads core_id : Nat) : List Store :=
  let c := 1
  let c_start := x.P / c * (core_id % c)
  let c_end := x.P / c * (core_id % c + 1)
  (forStep (2 * (core_id / c)) x.M (2 * (numThreads / c))).flatMap fun i =>
    (forStep c_start c_end 2).flatMap fun j =>
      [x.put (i + 0) (j + 0) fun mem => (x.tile mem i j).c00,
       x.put (i + 0) (j + 1) fun mem => (x.tile mem i j).c01,
       x.put (i + 1) (j + 0) fun mem => (x.tile mem i j).c10,
       x.put (i + 1) (j + 1) fun mem => (x.tile mem i j).c11]

/-- The test of the kernel. -/
def test {numThreads : Nat} (testOutputVector0 : Nat) (r : Metrics numThreads) :
    KernelTest numThreads where
  output := x.pDstC
  expected := testOutputVector0
  zero_memory := 0
  width := 4
  count := x.M * x.P
  cleared := 0
  kernel k := x.MatMul_unrolled_2x2_parallel_s8_rv32im numThreads k.val
  metrics := r

/-! ## Section 2: The product -/

open Finset in
/-- An element of the product, as the reference model has it. -/
def matmul (mem : Mem) (i j : Nat) : Int := ∑ k ∈ range x.N, x.A mem i k * x.B mem k j

/-- The elements of the product in row-major order, as they lie in memory. -/
def product (mem : Mem) (i : Nat) : Nat := bits 4 (x.matmul mem (i / x.P) (i % x.P))

/-- What the kernel assumes: the dimensions are even and the output lies
    apart from the inputs. -/
structure Placed (x : MatMul) : Prop where
  even_M : x.M % 2 = 0
  even_N : x.N % 2 = 0
  even_P : x.P % 2 = 0
  apart_A : Apart x.pDstC (4 * (x.M * x.P)) x.pSrcA (x.M * x.N)
  apart_B : Apart x.pDstC (4 * (x.M * x.P)) x.pSrcB (x.N * x.P)

variable {x} {mem : Mem} {i j : Nat}

/-- One accumulator of a tile, over the whole loop. -/
theorem foldl_step (mem : Mem) (i j : Nat) (l : List Nat) (c : Tile) :
    l.foldl (x.step mem i j) c =
      { c00 := l.foldl (fun c k => int32 (int32 (c + x.A mem i k * x.B mem k j) +
          x.A mem i (k + 1) * x.B mem (k + 1) j)) c.c00
        c01 := l.foldl (fun c k => int32 (int32 (c + x.A mem i k * x.B mem k (j + 1)) +
          x.A mem i (k + 1) * x.B mem (k + 1) (j + 1))) c.c01
        c10 := l.foldl (fun c k => int32 (int32 (c + x.A mem (i + 1) k * x.B mem k j) +
          x.A mem (i + 1) (k + 1) * x.B mem (k + 1) j)) c.c10
        c11 := l.foldl (fun c k => int32 (int32 (c + x.A mem (i + 1) k * x.B mem k (j + 1)) +
          x.A mem (i + 1) (k + 1) * x.B mem (k + 1) (j + 1))) c.c11 } := by
  induction l generalizing c with
  | nil => rfl
  | cons k l ih =>
    rw [List.foldl_cons, ih]
    rfl

/-- An accumulator leaves the wrapped element of the product. -/
theorem accumulated (hN : x.N % 2 = 0) (mem : Mem) (i j : Nat) :
    (forStep 0 x.N 2).foldl (fun c k => int32 (int32 (c + x.A mem i k * x.B mem k j) +
      x.A mem i (k + 1) * x.B mem (k + 1) j)) 0 = int32 (x.matmul mem i j) := by
  have heven : x.N = 2 * (x.N / 2) := by omega
  have hpairs := foldl_pairs (fun k => x.A mem i k * x.B mem k j) (x.N / 2) 0
  rw [← heven, Int.zero_add] at hpairs
  exact hpairs

theorem tile_eq (hN : x.N % 2 = 0) (mem : Mem) (i j : Nat) :
    x.tile mem i j =
      { c00 := int32 (x.matmul mem i j)
        c01 := int32 (x.matmul mem i (j + 1))
        c10 := int32 (x.matmul mem (i + 1) j)
        c11 := int32 (x.matmul mem (i + 1) (j + 1)) } := by
  unfold tile
  rw [foldl_step]
  simp only [accumulated hN]

section Kernel

variable {testOutputVector0 numThreads core_id : Nat} {r : Metrics numThreads} {s : Store}

/-- The store of an element of the product. -/
def storeProduct (x : MatMul) {numThreads : Nat} (testOutputVector0 : Nat) (r : Metrics numThreads)
    (i j : Nat) : Store :=
  (x.test testOutputVector0 r).storeElement (i * x.P + j)
    fun mem => x.product mem (i * x.P + j)

theorem put_eq (hj : j < x.P) {v : Mem → Int} (hv : ∀ mem, v mem = int32 (x.matmul mem i j)) :
    x.put i j v = x.storeProduct testOutputVector0 r i j := by
  have hvalue : (fun mem => bits 4 (v mem)) = fun mem => x.product mem (i * x.P + j) := by
    funext mem
    unfold product
    rw [index_div hj, index_mod hj, hv, bits_int32]
  unfold put
  rw [hvalue]
  rfl

theorem tile_stores (hN : x.N % 2 = 0) (hj : j + 1 < x.P) :
    [x.put (i + 0) (j + 0) fun mem => (x.tile mem i j).c00,
      x.put (i + 0) (j + 1) fun mem => (x.tile mem i j).c01,
      x.put (i + 1) (j + 0) fun mem => (x.tile mem i j).c10,
      x.put (i + 1) (j + 1) fun mem => (x.tile mem i j).c11] =
    [x.storeProduct testOutputVector0 r i j,
      x.storeProduct testOutputVector0 r i (j + 1),
      x.storeProduct testOutputVector0 r (i + 1) j,
      x.storeProduct testOutputVector0 r (i + 1) (j + 1)] := by
  rw [put_eq (j := j + 0) (by omega) (fun mem => by rw [tile_eq hN]; rfl),
    put_eq hj (fun mem => by rw [tile_eq hN]; rfl),
    put_eq (j := j + 0) (by omega) (fun mem => by rw [tile_eq hN]; rfl),
    put_eq hj (fun mem => by rw [tile_eq hN])]
  rfl

/-- The stores of a core, as elements of the product. -/
theorem kernel_eq (hx : x.Placed) (testOutputVector0 : Nat) (r : Metrics numThreads)
    (core_id : Nat) :
    x.MatMul_unrolled_2x2_parallel_s8_rv32im numThreads core_id =
      (forStep (2 * core_id) x.M (2 * numThreads)).flatMap fun i =>
        (forStep 0 x.P 2).flatMap fun j =>
          [x.storeProduct testOutputVector0 r i j,
            x.storeProduct testOutputVector0 r i (j + 1),
            x.storeProduct testOutputVector0 r (i + 1) j,
            x.storeProduct testOutputVector0 r (i + 1) (j + 1)] := by
  have hP := hx.even_P
  unfold MatMul_unrolled_2x2_parallel_s8_rv32im
  dsimp only
  rw [Nat.mod_one, Nat.div_one, Nat.div_one, Nat.div_one, Nat.mul_zero, Nat.mul_one]
  apply List.flatMap_congr
  intro i _
  apply List.flatMap_congr
  intro j hj
  obtain ⟨p, rfl, hj⟩ := (mem_forStep (by omega)).mp hj
  exact tile_stores hx.even_N (by omega)

/-- A core stores elements of the product, -/
theorem mem_kernel (hx : x.Placed) (hthreads : 0 < numThreads) (testOutputVector0 : Nat)
    (r : Metrics numThreads)
    (hs : s ∈ x.MatMul_unrolled_2x2_parallel_s8_rv32im numThreads core_id) :
    ∃ i j, i < x.M ∧ j < x.P ∧ s = x.storeProduct testOutputVector0 r i j := by
  have hM := hx.even_M
  have hP := hx.even_P
  rw [kernel_eq hx testOutputVector0 r] at hs
  obtain ⟨i, hi, hs⟩ := List.mem_flatMap.mp hs
  obtain ⟨j, hj, hs⟩ := List.mem_flatMap.mp hs
  obtain ⟨q, hq, hi⟩ := (mem_forStep (by omega)).mp hi
  obtain ⟨p, hp, hj⟩ := (mem_forStep (by omega)).mp hj
  rw [Nat.mul_assoc, ← Nat.mul_add] at hq
  simp only [List.mem_cons, List.not_mem_nil, or_false] at hs
  obtain rfl | rfl | rfl | rfl := hs
  · exact ⟨i, j, hi, hj, rfl⟩
  · exact ⟨i, j + 1, hi, by omega, rfl⟩
  · exact ⟨i + 1, j, by omega, hj, rfl⟩
  · exact ⟨i + 1, j + 1, by omega, by omega, rfl⟩

/-- and every element is stored by one of the cores. -/
theorem storeProduct_mem (hx : x.Placed) (hthreads : 0 < numThreads) (testOutputVector0 : Nat)
    (r : Metrics numThreads)
    (hi : i < x.M) (hj : j < x.P) :
    x.storeProduct testOutputVector0 r i j ∈
      x.MatMul_unrolled_2x2_parallel_s8_rv32im numThreads (i / 2 % numThreads) := by
  have hrow : 2 * (i / 2) = 2 * (i / 2 % numThreads) + 2 * numThreads * (i / 2 / numThreads) := by
    have hdiv := Nat.mod_add_div (i / 2) numThreads
    rw [Nat.mul_assoc, ← Nat.mul_add, hdiv]
  rw [kernel_eq hx testOutputVector0 r]
  apply List.mem_flatMap.mpr
  refine ⟨2 * (i / 2), (mem_forStep (by omega)).mpr ⟨_, hrow, by omega⟩, ?_⟩
  apply List.mem_flatMap.mpr
  refine ⟨2 * (j / 2), (mem_forStep (by omega)).mpr ⟨j / 2, by omega, by omega⟩, ?_⟩
  simp only [List.mem_cons, List.not_mem_nil, or_false]
  obtain hi' | hi' : i = 2 * (i / 2) ∨ i = 2 * (i / 2) + 1 := by omega
  · obtain hj' | hj' : j = 2 * (j / 2) ∨ j = 2 * (j / 2) + 1 := by omega
    · left
      rw [← hi', ← hj']
    · right; left
      rw [← hi', ← hj']
  · obtain hj' | hj' : j = 2 * (j / 2) ∨ j = 2 * (j / 2) + 1 := by omega
    · right; right; left
      rw [← hi', ← hj']
    · right; right; right
      rw [← hi', ← hj']

end Kernel

/-! ## Section 3: The test -/

section Test

variable {testOutputVector0 numThreads : Nat} {r : Metrics numThreads} {m : Mem × Nat}

theorem A_frame (hx : x.Placed) (hm : (x.test testOutputVector0 r).Frame mem m)
    {k : Nat} (hi : i < x.M) (hk : k < x.N) : x.A m.1 i k = x.A mem i k := by
  have hlt := index_lt hi hk
  exact hm.loadInt_eq hx.apart_A (by omega) (by omega)

theorem B_frame (hx : x.Placed) (hm : (x.test testOutputVector0 r).Frame mem m)
    {k : Nat} (hk : k < x.N) (hj : j < x.P) : x.B m.1 k j = x.B mem k j := by
  have hlt := index_lt hk hj
  exact hm.loadInt_eq hx.apart_B (by omega) (by omega)

theorem matmul_frame (hx : x.Placed) (hm : (x.test testOutputVector0 r).Frame mem m)
    (hi : i < x.M) (hj : j < x.P) : x.matmul m.1 i j = x.matmul mem i j := by
  apply Finset.sum_congr rfl
  intro k hk
  have hk' := Finset.mem_range.mp hk
  rw [A_frame hx hm hi hk', B_frame hx hm hk' hj]

theorem computes (hx : x.Placed) (hthreads : 0 < numThreads) :
    (x.test testOutputVector0 r).Computes mem (x.product mem) := by
  apply KernelTest.computes_of_elements (v := fun i mem => x.product mem i)
  · intro i _
    exact bits_lt _ _
  · intro i hi m hm
    unfold product
    rw [matmul_frame hx hm (row_lt hi) (column_lt hi)]
  · intro k _ s hs
    obtain ⟨i, j, hi, hj, rfl⟩ := mem_kernel hx hthreads testOutputVector0 r hs
    exact ⟨i * x.P + j, index_lt hi hj, rfl⟩
  · intro i hi
    have hcore : i / x.P / 2 % numThreads < numThreads := Nat.mod_lt _ hthreads
    refine ⟨⟨i / x.P / 2 % numThreads, by omega⟩, hcore, ?_⟩
    have hmem := storeProduct_mem hx hthreads testOutputVector0 r (row_lt hi) (column_lt hi)
    unfold storeProduct at hmem
    rw [Nat.div_add_mod' i x.P] at hmem
    exact hmem

/-- **The test of the matrix product**: whatever the schedule and however far
    a core runs ahead of the others, the output is the product in the end,
    and the errors are the elements in which the expected output differs. -/
theorem matmul_test [rt : Runtime] (hx : x.Placed) (hthreads : 0 < numThreads)
    (hexpected : Apart x.pDstC (4 * (x.M * x.P)) testOutputVector0 (4 * (x.M * x.P)))
    (hr : r.Placed x.pDstC testOutputVector0 (4 * (x.M * x.P)))
    {repetitions : Nat} (hrep : 0 < repetitions) (mem : Mem) :
    (x.test testOutputVector0 r).Tests
      ((x.test testOutputVector0 r).mainWithoutClear repetitions) mem (x.product mem) := by
  obtain rfl := rt.eq_modelled
  exact KernelTest.mainWithoutClear_tests ⟨hexpected, Nat.zero_le _, hr⟩ (computes hx hthreads) hrep

/-- Two matrices of ones, of two rows and two columns, on two compute cores. -/
def twoByTwo : MatMul := ⟨0, 4, 8, 2, 2, 2⟩

theorem matmul_test_twoByTwo : (twoByTwo.test 32 (measuredAt 64 2)).Tests
    ((twoByTwo.test 32 (measuredAt 64 2)).mainWithoutClear 3) (fun _ => 1)
    (twoByTwo.product fun _ => 1) := by
  apply matmul_test
  · exact ⟨by decide, by decide, by decide, .inr (by decide), .inr (by decide)⟩
  · decide
  · exact .inl (by decide)
  · exact measuredAt_placed 2 (by decide) (by decide)
  · decide

end Test

end MatMul

end Snrt
