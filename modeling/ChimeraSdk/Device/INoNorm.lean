import ChimeraSdk.Device.Chunks

/-! # The Normalisation without a Norm

    The kernel treats four bytes at once where its chunk has whole words,
    and the rest byte by byte.  It takes the bytes in front of the first
    word to be as many as `start % 4`, so that neighbouring cores may store
    the same elements, and a core with a single element may store behind
    the end. -/

open Cluster ByteMemory CInt

namespace Snrt

/-- The arguments of the kernel. -/
structure INoNorm where
  data_in : Nat
  data_out : Nat
  weights : Nat
  bias : Nat
  size : Nat
  mul : Int
  log2D : Nat

namespace INoNorm

variable (x : INoNorm)

/-! ## Section 1: The kernel -/

/-- `((((int32_t)data_in[i] * weights[i]) + bias[i]) * mul) >> log2D` -/
def scalar (mem : Mem) (i : Nat) : Int :=
  int32 (int32 (int32 (loadInt mem (x.data_in + i) 1 * loadInt mem (x.weights + i) 1) +
    loadInt mem (x.bias + 4 * i) 4) * x.mul) >>> x.log2D

/-- `outPacked`, for the word `i`. -/
def packed (mem : Mem) (i biasIdx : Nat) : Nat :=
  let packedIn := load mem (x.data_in + 4 * i) 4
  let packedWeights := load mem (x.weights + 4 * i) 4
  let unpackedIn1 := int8 (packedIn &&& 0x000000FF : Nat)
  let unpackedIn2 := int8 ((packedIn &&& 0x0000FF00) >>> 8 : Nat)
  let unpackedIn3 := int8 ((packedIn &&& 0x00FF0000) >>> 16 : Nat)
  let unpackedIn4 := int8 (packedIn >>> 24 : Nat)
  let unpackedWeights1 := int8 (packedWeights &&& 0x000000FF : Nat)
  let unpackedWeights2 := int8 ((packedWeights &&& 0x0000FF00) >>> 8 : Nat)
  let unpackedWeights3 := int8 ((packedWeights &&& 0x00FF0000) >>> 16 : Nat)
  let unpackedWeights4 := int8 (packedWeights >>> 24 : Nat)
  let partialProduct1 := int16 (unpackedIn1 * unpackedWeights1)
  let partialProduct2 := int16 (unpackedIn2 * unpackedWeights2)
  let partialProduct3 := int16 (unpackedIn3 * unpackedWeights3)
  let partialProduct4 := int16 (unpackedIn4 * unpackedWeights4)
  let outBuf (partialProduct bias : Int) : Nat :=
    bits 1 (int32 (int32 (partialProduct + bias) * x.mul) >>> x.log2D)
  let outBuf1 := outBuf partialProduct1 (loadInt mem (x.bias + 4 * (biasIdx + 0)) 4)
  let outBuf2 := outBuf partialProduct2 (loadInt mem (x.bias + 4 * (biasIdx + 1)) 4)
  let outBuf3 := outBuf partialProduct3 (loadInt mem (x.bias + 4 * (biasIdx + 2)) 4)
  let outBuf4 := outBuf partialProduct4 (loadInt mem (x.bias + 4 * (biasIdx + 3)) 4)
  (outBuf1 <<< 0) ||| (outBuf2 <<< 8) ||| (outBuf3 <<< 16) ||| (outBuf4 <<< 24)

/-- `data_out[i] = ...;` -/
def putScalar (i : Nat) : Store := ⟨x.data_out + i, 1, fun mem => bits 1 (x.scalar mem i)⟩

/-- `outputPtr[i] = outPacked;` -/
def putPacked (i biasIdx : Nat) : Store :=
  ⟨x.data_out + 4 * i, 4, fun mem => x.packed mem i biasIdx⟩

/-- The stores of a core.  `biasIdx` counts on in fours next to `i`. -/
def SnitchiNoNorm_s8_s8 (numThreads core_id : Nat) : List Store :=
  let start := chunkStart x.size numThreads core_id
  let stop := chunkStop x.size numThreads core_id
  let firstReminderLoopSize := start % 4
  let lastReminderLoopSize := stop % 4
  let firstReminderLoopIdx := start
  let lastReminderLoopIdx := stop - lastReminderLoopSize
  let start := (start + firstReminderLoopSize) >>> 2
  let stop := (stop - lastReminderLoopSize) >>> 2
  (forStep firstReminderLoopIdx (firstReminderLoopIdx + firstReminderLoopSize) 1).map x.putScalar ++
    ((forStep start stop 1).zipIdx.map fun (i, n) => x.putPacked i (start * 4 + 4 * n)) ++
    (forStep lastReminderLoopIdx (lastReminderLoopIdx + lastReminderLoopSize) 1).map x.putScalar

def test {numThreads : Nat} (testOutputVector0 zero_memory : Nat) (r : Metrics numThreads) :
    KernelTest numThreads where
  output := x.data_out
  expected := testOutputVector0
  zero_memory := zero_memory
  width := 1
  count := x.size
  cleared := x.size
  kernel k := x.SnitchiNoNorm_s8_s8 numThreads k.val
  metrics := r

/-- The reference model. -/
def inonorm (mem : Mem) (i : Nat) : Nat :=
  let partial_product := int16 (loadInt mem (x.data_in + i) 1 * loadInt mem (x.weights + i) 1)
  let accumulator := int32 (int32 (partial_product + loadInt mem (x.bias + 4 * i) 4) * x.mul)
  bits 1 (accumulator >>> x.log2D)

/-- What the kernel relies on. -/
structure Placed (x : INoNorm) : Prop where
  apart_in : Apart x.data_out x.size x.data_in x.size
  apart_weights : Apart x.data_out x.size x.weights x.size
  apart_bias : Apart x.data_out x.size x.bias (4 * x.size)

/-- The first loop of every core stays in the vector. -/
def InBounds (size numThreads : Nat) : Prop :=
  ∀ core_id, core_id < numThreads →
    chunkStart size numThreads core_id + chunkStart size numThreads core_id % 4 ≤ size

variable {x} {testOutputVector0 zero_memory numThreads : Nat} {r : Metrics numThreads} {mem : Mem}

/-! ## Section 2: The elements -/

/-- A product of bytes fits into 16 bits. -/
theorem product_range (mem : Mem) (a b : Nat) :
    -2 ^ 15 ≤ loadInt mem a 1 * loadInt mem b 1 ∧ loadInt mem a 1 * loadInt mem b 1 < 2 ^ 15 := by
  have ha := loadInt_byte mem a
  have hb := loadInt_byte mem b
  have habs : (loadInt mem a 1 * loadInt mem b 1).natAbs ≤ 128 * 128 := by
    rw [Int.natAbs_mul]
    exact Nat.mul_le_mul (by omega) (by omega)
  omega

/-- The loops on bytes agree with the reference model. -/
theorem scalar_eq (mem : Mem) (i : Nat) : bits 1 (x.scalar mem i) = x.inonorm mem i := by
  have hrange := product_range mem (x.data_in + i) (x.weights + i)
  unfold scalar inonorm
  rw [int32_of_range (v := loadInt mem (x.data_in + i) 1 * _) (by omega) (by omega),
    int16_of_range hrange.1 hrange.2]

/-- A word is the four elements of the reference model. -/
theorem packed_eq (mem : Mem) (i : Nat) :
    x.packed mem i (4 * i) = x.inonorm mem (4 * i) + 256 * (x.inonorm mem (4 * i + 1) +
      256 * (x.inonorm mem (4 * i + 2) + 256 * x.inonorm mem (4 * i + 3))) := by
  obtain ⟨hin₁, hin₂, hin₃, hin₄⟩ := unpacked_bytes mem (x.data_in + 4 * i)
  obtain ⟨hw₁, hw₂, hw₃, hw₄⟩ := unpacked_bytes mem (x.weights + 4 * i)
  unfold packed
  dsimp only
  rw [hin₁, hin₂, hin₃, hin₄, hw₁, hw₂, hw₃, hw₄,
    packed_bytes (bits_lt 1 _) (bits_lt 1 _) (bits_lt 1 _)]
  rfl

/-! ## Section 3: The stores -/

theorem mem_kernel {core_id : Nat} {s : Store} :
    s ∈ x.SnitchiNoNorm_s8_s8 numThreads core_id ↔
      (∃ i, (chunkStart x.size numThreads core_id ≤ i ∧
        i < chunkStart x.size numThreads core_id + chunkStart x.size numThreads core_id % 4) ∧
          s = x.putScalar i) ∨
      (∃ i, (chunkStart x.size numThreads core_id + chunkStart x.size numThreads core_id % 4 <
        4 * i + 4 ∧ 4 * i + 4 ≤ chunkStop x.size numThreads core_id) ∧
          s = x.putPacked i (4 * i)) ∨
      (∃ i, (chunkStop x.size numThreads core_id - chunkStop x.size numThreads core_id % 4 ≤ i ∧
        i < chunkStop x.size numThreads core_id) ∧ s = x.putScalar i) := by
  have hlast := Nat.mod_le (chunkStop x.size numThreads core_id) 4
  unfold SnitchiNoNorm_s8_s8
  dsimp only
  generalize chunkStart x.size numThreads core_id = start at *
  generalize chunkStop x.size numThreads core_id = stop at *
  rw [List.mem_append, List.mem_append, or_assoc, Nat.shiftRight_eq_div_pow,
    Nat.shiftRight_eq_div_pow]
  have hscalar : ∀ a b, s ∈ (forStep a b 1).map x.putScalar ↔
      ∃ i, (a ≤ i ∧ i < b) ∧ s = x.putScalar i := by
    intro a b
    rw [List.mem_map]
    constructor
    · rintro ⟨i, hi, rfl⟩
      exact ⟨i, mem_forStep_one.mp hi, rfl⟩
    · rintro ⟨i, hi, rfl⟩
      exact ⟨i, mem_forStep_one.mpr hi, rfl⟩
  have hpacked : ∀ a b, s ∈ (forStep a b 1).zipIdx.map
      (fun (i, n) => x.putPacked i (a * 4 + 4 * n)) ↔
      ∃ i, (a ≤ i ∧ i < b) ∧ s = x.putPacked i (4 * i) := by
    intro a b
    rw [List.mem_map]
    constructor
    · rintro ⟨⟨i, n⟩, hmem, rfl⟩
      obtain ⟨rfl, hlt⟩ := mem_zipIdx_forStep_one.mp hmem
      refine ⟨a + n, ⟨Nat.le_add_right a n, hlt⟩, ?_⟩
      show x.putPacked (a + n) (a * 4 + 4 * n) = _
      rw [Nat.mul_add, Nat.mul_comm a 4]
    · rintro ⟨i, ⟨hlo, hhi⟩, rfl⟩
      refine ⟨(i, i - a), mem_zipIdx_forStep_one.mpr ⟨by omega, hhi⟩, ?_⟩
      show x.putPacked i (a * 4 + 4 * (i - a)) = _
      congr 1
      omega
  have hwords : ∀ i, (start + start % 4) / 2 ^ 2 ≤ i ∧ i < (stop - stop % 4) / 2 ^ 2 ↔
      start + start % 4 < 4 * i + 4 ∧ 4 * i + 4 ≤ stop := by
    intro i
    omega
  rw [hscalar, hscalar, hpacked, Nat.sub_add_cancel hlast]
  simp only [hwords]

/-- A core with two elements or more, or with none, starts at most three
    elements in front of the end. -/
theorem inBounds_iff {size : Nat} : InBounds size numThreads ↔
    (size / numThreads = 1 → ∀ core_id, core_id < numThreads → core_id + core_id % 4 ≤ size) := by
  constructor
  · intro h hone core_id hcore
    have hin := h core_id hcore
    unfold chunkStart at hin
    rwa [hone, Nat.mul_one] at hin
  · intro h core_id hcore
    have hdiv := Nat.mul_div_le size numThreads
    have hnext : (core_id + 1) * (size / numThreads) ≤ numThreads * (size / numThreads) :=
      Nat.mul_le_mul_right _ hcore
    rw [Nat.succ_mul] at hnext
    unfold chunkStart
    by_cases hone : size / numThreads = 1
    · have hin := h hone core_id hcore
      rwa [hone, Nat.mul_one]
    · generalize size / numThreads = chunkSize at *
      by_cases hsmall : chunkSize < 3
      · obtain rfl | rfl : chunkSize = 0 ∨ chunkSize = 2 := by omega
        · omega
        · omega
      · omega

theorem stores_inside_of_inBounds (hin : InBounds x.size numThreads) {core_id : Nat}
    (hcore : core_id < numThreads) {s : Store}
    (hs : s ∈ x.SnitchiNoNorm_s8_s8 numThreads core_id) :
    x.data_out ≤ s.address ∧ s.address + s.width ≤ x.data_out + x.size := by
  have hfirst := hin core_id hcore
  have hstop := chunkStop_le x.size hcore
  obtain ⟨i, hi, rfl⟩ | ⟨i, hi, rfl⟩ | ⟨i, hi, rfl⟩ := mem_kernel.mp hs
  · show x.data_out ≤ x.data_out + i ∧ x.data_out + i + 1 ≤ x.data_out + x.size
    omega
  · show x.data_out ≤ x.data_out + 4 * i ∧ x.data_out + 4 * i + 4 ≤ x.data_out + x.size
    omega
  · show x.data_out ≤ x.data_out + i ∧ x.data_out + i + 1 ≤ x.data_out + x.size
    omega

/-- **The first loop decides**: the stores of all cores lie in the output,
    except where a core has a single element and its number and the
    remainder of that lead behind the end. -/
theorem stores_inside_iff :
    (∀ core_id, core_id < numThreads → ∀ s ∈ x.SnitchiNoNorm_s8_s8 numThreads core_id,
      x.data_out ≤ s.address ∧ s.address + s.width ≤ x.data_out + x.size) ↔
      (x.size / numThreads = 1 → ∀ core_id, core_id < numThreads →
        core_id + core_id % 4 ≤ x.size) := by
  rw [← inBounds_iff]
  constructor
  · intro h core_id hcore
    by_contra hout
    have hle := chunkStart_le_stop x.size hcore
    have hstop := chunkStop_le x.size hcore
    -- the last round of the first loop stores behind the end
    have hmem := h core_id hcore (x.putScalar (chunkStart x.size numThreads core_id +
      chunkStart x.size numThreads core_id % 4 - 1))
      (mem_kernel.mpr (.inl ⟨_, ⟨by omega, by omega⟩, rfl⟩))
    have haddress : x.data_out + (chunkStart x.size numThreads core_id +
      chunkStart x.size numThreads core_id % 4 - 1) + 1 ≤ x.data_out + x.size := hmem.2
    omega
  · intro h core_id hcore s hs
    exact stores_inside_of_inBounds h hcore hs

/-- **The loops cover the chunk**, whatever its ends are modulo four. -/
theorem chunk_covered {core_id i : Nat}
    (hlo : chunkStart x.size numThreads core_id ≤ i)
    (hhi : i < chunkStop x.size numThreads core_id) :
    ∃ s ∈ x.SnitchiNoNorm_s8_s8 numThreads core_id,
      s.address ≤ x.data_out + i ∧ x.data_out + i + 1 ≤ s.address + s.width := by
  by_cases hfirst : i < chunkStart x.size numThreads core_id +
      chunkStart x.size numThreads core_id % 4
  · exact ⟨x.putScalar i, mem_kernel.mpr (.inl ⟨i, ⟨hlo, hfirst⟩, rfl⟩), le_rfl, le_rfl⟩
  · by_cases hlast : chunkStop x.size numThreads core_id -
        chunkStop x.size numThreads core_id % 4 ≤ i
    · exact ⟨x.putScalar i, mem_kernel.mpr (.inr (.inr ⟨i, ⟨hlast, hhi⟩, rfl⟩)), le_rfl, le_rfl⟩
    · refine ⟨x.putPacked (i / 4) (4 * (i / 4)), mem_kernel.mpr (.inr (.inl ⟨i / 4, ?_, rfl⟩)), ?_⟩
      · omega
      · show x.data_out + 4 * (i / 4) ≤ x.data_out + i ∧
          x.data_out + i + 1 ≤ x.data_out + 4 * (i / 4) + 4
        omega

/-! ## Section 4: The test -/

theorem inonorm_frame (hx : x.Placed) {m : Mem × Nat}
    (hm : (x.test testOutputVector0 zero_memory r).Frame mem m) {i : Nat} (hi : i < x.size) :
    x.inonorm m.1 i = x.inonorm mem i := by
  unfold inonorm
  rw [hm.loadInt_eq_of_bytes rfl hx.apart_in (by omega) (by omega),
    hm.loadInt_eq_of_bytes rfl hx.apart_weights (by omega) (by omega),
    hm.loadInt_eq_of_bytes rfl hx.apart_bias (by omega) (by omega)]

/-- A store of a byte is an element, -/
theorem putScalar_stores (hx : x.Placed) {i : Nat} (hi : i < x.size) :
    (x.test testOutputVector0 zero_memory r).StoresElements mem (x.inonorm mem)
      (x.putScalar i) := by
  have helement : (x.test testOutputVector0 zero_memory r).storeElement i
      (fun mem => bits 1 (x.scalar mem i)) = x.putScalar i := KernelTest.storeElement_byte rfl i _
  rw [← helement]
  apply KernelTest.storesElements_element hi
  intro m hm
  rw [scalar_eq, inonorm_frame hx hm hi]

/-- and a store of a word is four of them. -/
theorem putPacked_stores (hx : x.Placed) {i : Nat} (hi : 4 * i + 4 ≤ x.size) :
    (x.test testOutputVector0 zero_memory r).StoresElements mem (x.inonorm mem)
      (x.putPacked i (4 * i)) := by
  have hsize : (x.test testOutputVector0 zero_memory r).size = x.size := Nat.one_mul _
  constructor
  · rw [hsize]
    show x.data_out ≤ x.data_out + 4 * i ∧ x.data_out + 4 * i + 4 ≤ x.data_out + x.size
    omega
  · apply storesAt_bytes
    intro m hm j hj
    have h₀ := inonorm_frame hx hm (show 4 * i < x.size by omega)
    have h₁ := inonorm_frame hx hm (show 4 * i + 1 < x.size by omega)
    have h₂ := inonorm_frame hx hm (show 4 * i + 2 < x.size by omega)
    have h₃ := inonorm_frame hx hm (show 4 * i + 3 < x.size by omega)
    rw [packed_eq, h₀, h₁, h₂, h₃]
    have b₀ : x.inonorm mem (4 * i) < 256 := bits_lt 1 _
    have b₁ : x.inonorm mem (4 * i + 1) < 256 := bits_lt 1 _
    have b₂ : x.inonorm mem (4 * i + 2) < 256 := bits_lt 1 _
    apply UInt8.toNat_inj.mp
    show (_ + 256 * _) / 256 ^ j % 256 = x.inonorm mem (4 * i + j) % 256
    match j, hj with
    | 0, _ => rw [Nat.pow_zero, Nat.div_one, Nat.add_mul_mod_self_left, Nat.add_zero]
    | 1, _ => omega
    | 2, _ => omega
    | 3, _ => omega

theorem computes (hx : x.Placed) (hthreads : 0 < numThreads) (hin : InBounds x.size numThreads) :
    (x.test testOutputVector0 zero_memory r).Computes mem (x.inonorm mem) := by
  refine ⟨fun i _ => bits_lt 1 _, ?_, ?_⟩
  · intro k s hs
    obtain ⟨hk, hs⟩ := KernelTest.mem_stores.mp hs
    have hfirst := hin k.val hk
    have hstop := chunkStop_le x.size hk
    obtain ⟨i, hi, rfl⟩ | ⟨i, hi, rfl⟩ | ⟨i, hi, rfl⟩ := mem_kernel.mp hs
    · exact putScalar_stores hx (by omega)
    · exact putPacked_stores hx (by omega)
    · exact putScalar_stores hx (by omega)
  · intro i hi
    obtain ⟨k, hk, hlo, hhi⟩ := chunks_cover hthreads hi
    obtain ⟨s, hs, hcovers⟩ := chunk_covered hlo hhi
    refine ⟨⟨k, by omega⟩, s, KernelTest.mem_stores.mpr ⟨hk, hs⟩, ?_⟩
    show s.address ≤ x.data_out + 1 * i ∧ x.data_out + 1 * i + 1 ≤ s.address + s.width
    rw [Nat.one_mul]
    exact hcovers

/-- **The test of the normalisation**: with no store behind the end, the
    output is what the reference model gives. Cores that store the same
    elements store the same bytes. -/
theorem inonorm_l1_test [rt : Runtime] (hx : x.Placed) (hthreads : 0 < numThreads)
    (hin : InBounds x.size numThreads)
    (hexpected : Apart x.data_out x.size testOutputVector0 x.size)
    (hr : r.Placed x.data_out testOutputVector0 x.size)
    {repetitions : Nat} (hrep : 0 < repetitions) (mem : Mem) :
    (x.test testOutputVector0 zero_memory r).Tests
      ((x.test testOutputVector0 zero_memory r).main repetitions) mem (x.inonorm mem) := by
  obtain rfl := rt.eq_modelled
  exact KernelTest.main_tests (KernelTest.placed_of_bytes rfl hexpected le_rfl hr)
    (computes hx hthreads hin) hrep

/-- Seventeen elements, in chunks of eight and nine. -/
def seventeen : INoNorm := ⟨0, 160, 32, 64, 17, 3, 2⟩

theorem inonorm_l1_test_seventeen : (seventeen.test 192 224 (measuredAt 256 2)).Tests
    ((seventeen.test 192 224 (measuredAt 256 2)).main 3) (fun _ => 1)
    (seventeen.inonorm fun _ => 1) := by
  apply inonorm_l1_test
  · exact ⟨.inr (by decide), .inr (by decide), .inr (by decide)⟩
  · decide
  · exact inBounds_iff.mpr fun hone => absurd hone (by decide)
  · exact .inl (by decide)
  · exact measuredAt_placed 2 (by decide) (by decide)
  · decide

end INoNorm

end Snrt
