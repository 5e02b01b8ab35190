import ChimeraSdk.Device.KernelTest

/-! # Kernels on Chunks

    The kernels on vectors deal chunks of the same size out to the compute
    cores, and the last core takes what remains.  This module has the
    chunks and the two kernels that treat every element alike: the sum of
    two vectors and the requantisation. -/

open Cluster ByteMemory CInt

namespace Snrt

/-! ## Section 1: Chunks -/

/-- `start = core_id * chunkSize;` -/
def chunkStart (size numThreads core_id : Nat) : Nat := core_id * (size / numThreads)

/-- `stop = (core_id == (numThreads - 1)) ? size : start + chunkSize;` -/
def chunkStop (size numThreads core_id : Nat) : Nat :=
  if core_id = numThreads - 1 then size else chunkStart size numThreads core_id + size / numThreads

section Chunks

variable {size numThreads core_id i : Nat}

theorem chunkStop_le (size : Nat) (h : core_id < numThreads) :
    chunkStop size numThreads core_id ≤ size := by
  have hmul : (core_id + 1) * (size / numThreads) ≤ numThreads * (size / numThreads) :=
    Nat.mul_le_mul_right _ h
  have hdiv := Nat.mul_div_le size numThreads
  rw [Nat.succ_mul] at hmul
  unfold chunkStop chunkStart
  split <;> omega

theorem chunkStart_le_stop (size : Nat) (h : core_id < numThreads) :
    chunkStart size numThreads core_id ≤ chunkStop size numThreads core_id := by
  unfold chunkStop
  split
  · calc core_id * (size / numThreads) ≤ numThreads * (size / numThreads) :=
          Nat.mul_le_mul_right _ h.le
      _ ≤ size := Nat.mul_div_le size numThreads
  · exact Nat.le_add_right _ _

/-- **The chunks cover the vector**: every element is in the chunk of some
    core. -/
theorem chunks_cover (hthreads : 0 < numThreads) (hi : i < size) :
    ∃ core_id, core_id < numThreads ∧ chunkStart size numThreads core_id ≤ i ∧
      i < chunkStop size numThreads core_id := by
  by_cases hlast : (numThreads - 1) * (size / numThreads) ≤ i
  · exact ⟨numThreads - 1, by omega, hlast, by rw [chunkStop, if_pos rfl]; exact hi⟩
  · -- the chunk size is positive, so that the core is a quotient
    have hpos : 0 < size / numThreads := by
      by_contra hzero
      rw [Nat.eq_zero_of_not_pos hzero, Nat.mul_zero] at hlast
      omega
    have hdiv := Nat.div_add_mod i (size / numThreads)
    have hmod := Nat.mod_lt i hpos
    have hcore : i / (size / numThreads) < numThreads - 1 := by
      apply Nat.div_lt_of_lt_mul
      rw [Nat.mul_comm]
      omega
    refine ⟨i / (size / numThreads), by omega, ?_, ?_⟩
    · rw [chunkStart, Nat.mul_comm]
      omega
    · rw [chunkStop, if_neg (by omega), chunkStart, Nat.mul_comm]
      omega

end Chunks

/-! ## Section 2: The sum of two vectors -/

/-- The arguments of the kernel. -/
structure Add where
  pIn1 : Nat
  pIn2 : Nat
  pOut : Nat
  size : Nat

namespace Add

variable (x : Add)

/-- `pIn1[i] + pIn2[i]` -/
def sum (mem : Mem) (i : Nat) : Int := loadInt mem (x.pIn1 + i) 1 + loadInt mem (x.pIn2 + i) 1

def SnitchAdd (numThreads core_id : Nat) : List Store :=
  (forStep (chunkStart x.size numThreads core_id) (chunkStop x.size numThreads core_id) 1).map
    fun i => ⟨x.pOut + 4 * i, 4, fun mem => bits 4 (x.sum mem i)⟩

/-- The test clears as many bytes as there are elements. -/
def test {numThreads : Nat} (testOutputVector0 zero_memory : Nat) (r : Metrics numThreads) :
    KernelTest numThreads where
  output := x.pOut
  expected := testOutputVector0
  zero_memory := zero_memory
  width := 4
  count := x.size
  cleared := x.size
  kernel k := x.SnitchAdd numThreads k.val
  metrics := r

variable {x} {testOutputVector0 zero_memory numThreads : Nat} {r : Metrics numThreads} {mem : Mem}

theorem computes (hthreads : 0 < numThreads) (h₁ : Apart x.pOut (4 * x.size) x.pIn1 x.size)
    (h₂ : Apart x.pOut (4 * x.size) x.pIn2 x.size) :
    (x.test testOutputVector0 zero_memory r).Computes mem
      (fun i => bits 4 (x.sum mem i)) := by
  apply KernelTest.computes_of_elements (v := fun i mem => bits 4 (x.sum mem i))
  · intro i _
    exact bits_lt _ _
  · intro i hi m hm
    have hlt : i < x.size := hi
    unfold sum
    rw [hm.loadInt_eq h₁ (by omega) (by omega), hm.loadInt_eq h₂ (by omega) (by omega)]
  · intro k hk s hs
    obtain ⟨i, hi, rfl⟩ := List.mem_map.mp hs
    have hstop := chunkStop_le x.size hk
    have hin := mem_forStep_one.mp hi
    exact ⟨i, Nat.lt_of_lt_of_le hin.2 hstop, rfl⟩
  · intro i hi
    obtain ⟨k, hk, hlo, hhi⟩ := chunks_cover hthreads hi
    refine ⟨⟨k, by omega⟩, hk, ?_⟩
    exact List.mem_map.mpr ⟨i, mem_forStep_one.mpr ⟨hlo, hhi⟩, rfl⟩

/-- **The test of the sum**: though the output is cleared while the cores may
    be storing to it, it holds the sums in the end, and the errors are the
    elements in which the expected output differs. -/
theorem add_l1_test [rt : Runtime] (hthreads : 0 < numThreads)
    (h₁ : Apart x.pOut (4 * x.size) x.pIn1 x.size) (h₂ : Apart x.pOut (4 * x.size) x.pIn2 x.size)
    (hexpected : Apart x.pOut (4 * x.size) testOutputVector0 (4 * x.size))
    (hr : r.Placed x.pOut testOutputVector0 (4 * x.size))
    {repetitions : Nat} (hrep : 0 < repetitions) (mem : Mem) :
    (x.test testOutputVector0 zero_memory r).Tests
      ((x.test testOutputVector0 zero_memory r).main repetitions) mem
      (fun i => bits 4 (x.sum mem i)) := by
  have hcleared : x.size ≤ 4 * x.size := by omega
  obtain rfl := rt.eq_modelled
  exact KernelTest.main_tests ⟨hexpected, hcleared, hr⟩ (computes hthreads h₁ h₂) hrep

/-- Five elements, on two compute cores. -/
def fiveElements : Add := ⟨0, 8, 16, 5⟩

theorem add_l1_test_fiveElements : (fiveElements.test 64 128 (measuredAt 192 2)).Tests
    ((fiveElements.test 64 128 (measuredAt 192 2)).main 3) (fun _ => 1)
      (fun i => bits 4 (fiveElements.sum (fun _ => 1) i)) := by
  apply add_l1_test
  · decide
  · exact .inr (by decide)
  · exact .inr (by decide)
  · exact .inl (by decide)
  · exact measuredAt_placed 2 (by decide) (by decide)
  · decide

end Add

/-! ## Section 3: The requantisation -/

def CLAMP (x low high : Int) : Int := if x > high then high else if x < low then low else x

/-- The arguments of the kernel. -/
structure RequantShift where
  data_in : Nat
  size : Nat
  mul : Nat
  add : Nat
  data_out : Nat
  log2D : Nat
  channels : Nat

namespace RequantShift

variable (x : RequantShift)

/-- The body of the loops, for the channel `i`. -/
def out (mem : Mem) (i data_idx : Nat) : Int :=
  let intermediate := int32 (int32 (loadInt mem (x.data_in + data_idx) 1 *
    loadInt mem (x.mul + 4 * i) 4) + loadInt mem (x.add + 4 * i) 4)
  let intermediate := int32 (intermediate + (1 : Int) <<< (x.log2D - 1)) >>> x.log2D
  int8 (CLAMP intermediate (-128) 127)

/-- The channels of the rows, next to a `data_idx` that counts on. -/
def SnitchRequantShift_s8_s8_NHWC (numThreads core_id : Nat) : List Store :=
  let num_rows := x.size / x.channels
  let start := chunkStart num_rows numThreads core_id
  let stop := chunkStop num_rows numThreads core_id
  (((forStep start stop 1).flatMap fun _ => forStep 0 x.channels 1).zipIdx (start * x.channels)).map
    fun (i, data_idx) => ⟨x.data_out + data_idx, 1, fun mem => bits 1 (x.out mem i data_idx)⟩

/-- The reference model, on integers that do not overflow. -/
def requant_shift (mem : Mem) (i : Nat) : Int :=
  let intermediate := loadInt mem (x.data_in + i) 1 * loadInt mem (x.mul + 4 * (i % x.channels)) 4
  let intermediate := intermediate + loadInt mem (x.add + 4 * (i % x.channels)) 4
  let intermediate := (intermediate + (1 : Int) <<< (x.log2D - 1)) >>> x.log2D
  min (max intermediate (-128)) 127

def test {numThreads : Nat} (expected_output zero_memory : Nat) (r : Metrics numThreads) :
    KernelTest numThreads where
  output := x.data_out
  expected := expected_output
  zero_memory := zero_memory
  width := 1
  count := x.size
  cleared := x.size
  kernel k := x.SnitchRequantShift_s8_s8_NHWC numThreads k.val
  metrics := r

/-- What the kernel relies on: whole rows, and multipliers and offsets for
    which 32 bits are enough. -/
structure Placed (x : RequantShift) (mem : Mem) : Prop where
  rows : x.channels ∣ x.size
  shift : 0 < x.log2D
  small : ∀ i, i < x.channels → 128 * (loadInt mem (x.mul + 4 * i) 4).natAbs +
    (loadInt mem (x.add + 4 * i) 4).natAbs + 2 ^ (x.log2D - 1) < 2 ^ 31
  apart_in : Apart x.data_out x.size x.data_in x.size
  apart_mul : Apart x.data_out x.size x.mul (4 * x.channels)
  apart_add : Apart x.data_out x.size x.add (4 * x.channels)

variable {x} {expected_output zero_memory numThreads : Nat} {r : Metrics numThreads} {mem : Mem}

theorem CLAMP_eq (v : Int) : int8 (CLAMP v (-128) 127) = min (max v (-128)) 127 := by
  unfold CLAMP
  rw [int8_of_range]
  all_goals split_ifs <;> omega

/-- With room for all three terms, nothing wraps. -/
theorem int32_sum_of_small {p b r : Int} (h : p.natAbs + b.natAbs + r.natAbs < 2 ^ 31) :
    int32 (int32 (int32 p + b) + r) = p + b + r := by
  rw [int32_of_range (v := p) (by omega) (by omega),
    int32_of_range (v := p + b) (by omega) (by omega), int32_of_range (by omega) (by omega)]

theorem out_eq (hx : x.Placed mem) {i : Nat} (hi : i % x.channels < x.channels) :
    x.out mem (i % x.channels) i = x.requant_shift mem i := by
  have hsmall := hx.small _ hi
  have hbyte := loadInt_byte mem (x.data_in + i)
  have hmul : (loadInt mem (x.data_in + i) 1 *
      loadInt mem (x.mul + 4 * (i % x.channels)) 4).natAbs ≤
        128 * (loadInt mem (x.mul + 4 * (i % x.channels)) 4).natAbs := by
    rw [Int.natAbs_mul]
    exact Nat.mul_le_mul_right _ (by omega)
  have hround : ((1 : Int) <<< (x.log2D - 1)).natAbs = 2 ^ (x.log2D - 1) := by
    rw [Int.shiftLeft_eq, Int.one_mul, Int.natAbs_pow]
    rfl
  unfold out requant_shift
  dsimp only
  rw [int32_sum_of_small (by omega), CLAMP_eq]

/-- The elements of a core: `data_idx` runs through its rows and the channel
    is `data_idx` modulo the channels. -/
theorem mem_kernel {core_id : Nat} (hcore : core_id < numThreads) {s : Store} :
    s ∈ x.SnitchRequantShift_s8_s8_NHWC numThreads core_id ↔
      ∃ i, (chunkStart (x.size / x.channels) numThreads core_id * x.channels ≤ i ∧
        i < chunkStop (x.size / x.channels) numThreads core_id * x.channels) ∧
          s = ⟨x.data_out + i, 1, fun mem => bits 1 (x.out mem (i % x.channels) i)⟩ := by
  have hle := chunkStart_le_stop (x.size / x.channels) hcore
  unfold SnitchRequantShift_s8_s8_NHWC
  dsimp only
  rw [List.mem_map]
  constructor
  · rintro ⟨⟨i, p⟩, hmem, rfl⟩
    obtain ⟨rfl, hp⟩ := (mem_counted hle).mp hmem
    exact ⟨p, hp, rfl⟩
  · rintro ⟨p, hp, rfl⟩
    exact ⟨(p % x.channels, p), (mem_counted hle).mpr ⟨rfl, hp⟩, rfl⟩

theorem channel_lt (hx : x.Placed mem) {i : Nat} (hi : i < x.size) :
    i % x.channels < x.channels := by
  apply Nat.mod_lt
  by_contra hzero
  have hrows := hx.rows
  rw [Nat.eq_zero_of_not_pos hzero, Nat.zero_dvd] at hrows
  omega

/-- The requantisation reads what it read at the start. -/
theorem out_frame (hx : x.Placed mem) {m : Mem × Nat}
    (hm : (x.test expected_output zero_memory r).Frame mem m) {i : Nat} (hi : i < x.size) :
    x.out m.1 (i % x.channels) i = x.out mem (i % x.channels) i := by
  have hch := channel_lt hx hi
  unfold out
  rw [hm.loadInt_eq_of_bytes rfl hx.apart_in (by omega) (by omega),
    hm.loadInt_eq_of_bytes rfl hx.apart_mul (by omega) (by omega),
    hm.loadInt_eq_of_bytes rfl hx.apart_add (by omega) (by omega)]

theorem computes (hx : x.Placed mem) (hthreads : 0 < numThreads) :
    (x.test expected_output zero_memory r).Computes mem
      (fun i => bits 1 (x.requant_shift mem i)) := by
  have hrows : x.size / x.channels * x.channels = x.size := Nat.div_mul_cancel hx.rows
  have helement : ∀ i, (x.test expected_output zero_memory r).storeElement i
      (fun mem => bits 1 (x.out mem (i % x.channels) i)) =
        ⟨x.data_out + i, 1, fun mem => bits 1 (x.out mem (i % x.channels) i)⟩ :=
    fun i => KernelTest.storeElement_byte rfl i _
  apply KernelTest.computes_of_elements (v := fun i mem => bits 1 (x.out mem (i % x.channels) i))
  · intro i _
    exact bits_lt _ _
  · intro i hi m hm
    rw [out_frame hx hm hi, out_eq hx (channel_lt hx hi)]
  · intro k hk s hs
    obtain ⟨i, ⟨_, hhi⟩, rfl⟩ := (mem_kernel hk).mp hs
    have hstop : chunkStop (x.size / x.channels) numThreads k.val * x.channels ≤
        x.size / x.channels * x.channels :=
      Nat.mul_le_mul_right _ (chunkStop_le _ hk)
    rw [hrows] at hstop
    exact ⟨i, Nat.lt_of_lt_of_le hhi hstop, (helement i).symm⟩
  · intro i hi
    have hi' : i < x.size / x.channels * x.channels := by
      rw [hrows]
      exact hi
    obtain ⟨k, hk, hlo, hhi⟩ := chunks_cover hthreads (row_lt hi')
    refine ⟨⟨k, by omega⟩, hk, ?_⟩
    rw [helement]
    have hpos := channel_lt hx hi
    have hdiv := Nat.div_add_mod' i x.channels
    apply (mem_kernel hk).mpr
    refine ⟨i, ⟨?_, ?_⟩, rfl⟩
    · have hmul := Nat.mul_le_mul_right x.channels hlo
      omega
    · have hmul := Nat.mul_le_mul_right x.channels (Nat.succ_le_of_lt hhi)
      rw [Nat.succ_mul] at hmul
      omega

/-- **The test of the requantisation**: where 32 bits are enough, the output
    is what the reference model gives, and the errors are the elements in
    which the expected output differs. -/
theorem layerscale_l1_test [rt : Runtime] (hx : x.Placed mem) (hthreads : 0 < numThreads)
    (hexpected : Apart x.data_out x.size expected_output x.size)
    (hr : r.Placed x.data_out expected_output x.size)
    {repetitions : Nat} (hrep : 0 < repetitions) :
    (x.test expected_output zero_memory r).Tests
      ((x.test expected_output zero_memory r).main repetitions) mem
      (fun i => bits 1 (x.requant_shift mem i)) := by
  obtain rfl := rt.eq_modelled
  exact KernelTest.main_tests (KernelTest.placed_of_bytes rfl hexpected le_rfl hr)
    (computes hx hthreads) hrep

/-- Three rows of two channels, on two compute cores. -/
def threeRows : RequantShift := ⟨0, 6, 8, 16, 32, 1, 2⟩

/-- Their elements, the multipliers 3 and -2, and the offsets 7 and -1. -/
def threeRowsMem : Mem := fun a => [10, 20, 255, 128, 127, 1, 0, 0, 3, 0, 0, 0, 254, 255, 255, 255,
  7, 0, 0, 0, 255, 255, 255, 255].getD a 0

theorem layerscale_l1_test_threeRows : (threeRows.test 64 128 (measuredAt 192 2)).Tests
    ((threeRows.test 64 128 (measuredAt 192 2)).main 3) threeRowsMem
      (fun i => bits 1 (threeRows.requant_shift threeRowsMem i)) := by
  apply layerscale_l1_test
  · exact ⟨by decide, by decide, by decide, .inr (by decide), .inr (by decide), .inr (by decide)⟩
  · decide
  · exact .inl (by decide)
  · exact measuredAt_placed 2 (by decide) (by decide)
  · decide

end RequantShift

end Snrt
