import ChimeraSdk.Device.Snrt
import ChimeraSdk.Framework.CInt

/-! # A Matrix Product on the Accelerator

    `ita_compute_matmul_L2` feeds the accelerator tile by tile from buffers
    in the memory of the cluster.  While the accelerator works on a tile,
    the DMA engine fetches the next tile of the weights and writes the
    previous tile of the output back.  What a job of the accelerator
    computes is a parameter: it may depend on the flags, on the tiles and on
    the weights that are named for the next job. -/

open Cluster ByteMemory CInt

namespace Snrt

/-! ## Section 1: The accelerator -/

/-- The registers of a job. -/
structure Regs where
  input : Nat
  weight : Nat
  weight_next : Nat
  bias : Nat
  output : Nat
  flags : Nat
  deriving DecidableEq

def ITA_FLAGS (weight_preload weight_nextload bias_disable bias_direction output_disable : Nat) :
    Nat :=
  weight_preload ||| (weight_nextload <<< 1) ||| (bias_disable <<< 2) ||| (bias_direction <<< 3) |||
    (output_disable <<< 4)

/-- An address is programmed as an offset into the cluster, and not at all
    if it lies in front of it. -/
def ita_set_addresses (CLUSTER_4_BASE : Nat)
    (input_addr weight_addr weight_next_addr bias_addr output_addr : Nat) (r : Regs) : Regs where
  input := if input_addr > CLUSTER_4_BASE then input_addr - CLUSTER_4_BASE else r.input
  weight := if weight_addr > CLUSTER_4_BASE then weight_addr - CLUSTER_4_BASE else r.weight
  weight_next :=
    if weight_next_addr > CLUSTER_4_BASE then weight_next_addr - CLUSTER_4_BASE else r.weight_next
  bias := if bias_addr > CLUSTER_4_BASE then bias_addr - CLUSTER_4_BASE else r.bias
  output := if output_addr > CLUSTER_4_BASE then output_addr - CLUSTER_4_BASE else r.output
  flags := r.flags

def ita_set_flags (flags : Nat) (r : Regs) : Regs := { r with flags := flags }

/-- What a job does with its flags and with the tiles it reads, those of the
    input, the weights, the next weights and the bias: it changes the state
    of the accelerator, which gives the bytes of the output. -/
structure Accelerator (L : Type) where
  step : Nat → List UInt8 → List UInt8 → List UInt8 → List UInt8 → L → L
  out : L → Nat → UInt8

/-- A job does not depend on the weights of the next one, which it may fetch
    at most. -/
def Accelerator.IgnoresNext {L : Type} (acc : Accelerator L) : Prop :=
  ∀ flags input weight next next' bias l,
    acc.step flags input weight next bias l = acc.step flags input weight next' bias l

/-- The `n` bytes at `a`. -/
def tileAt (mem : Mem) (a n : Nat) : List UInt8 := (List.range n).map fun q => mem (a + q)

theorem tileAt_congr {mem mem' : Mem} {p p' n : Nat}
    (h : ∀ q, q < n → mem (p + q) = mem' (p' + q)) : tileAt mem p n = tileAt mem' p' n := by
  unfold tileAt
  apply List.map_congr_left
  intro q hq
  exact h q (List.mem_range.mp hq)

/-- The sizes of the tiles in bytes. -/
structure TileSizes where
  input : Nat
  weight : Nat
  bias : Nat
  output : Nat

/-- The next weights are read if the flags ask for them. -/
def nextAt (flags : Nat) (mem : Mem) (a n : Nat) : List UInt8 :=
  if flags.testBit 1 then tileAt mem a n else []

theorem nextAt_congr {flags : Nat} {mem mem' : Mem} {p p' n : Nat}
    (h : flags.testBit 1 = true → ∀ q, q < n → mem (p + q) = mem' (p' + q)) :
    nextAt flags mem p n = nextAt flags mem' p' n := by
  unfold nextAt
  split
  · next hflag => exact tileAt_congr (h hflag)
  · rfl

/-- A job: it reads the tiles that its registers name, and writes its output
    unless the flags disable it. -/
def Accelerator.job {L : Type} (acc : Accelerator L) (CLUSTER_4_BASE : Nat) (sizes : TileSizes)
    (r : Regs) (m : Mem × L) : Mem × L :=
  let l := acc.step r.flags (tileAt m.1 (CLUSTER_4_BASE + r.input) sizes.input)
    (tileAt m.1 (CLUSTER_4_BASE + r.weight) sizes.weight)
    (nextAt r.flags m.1 (CLUSTER_4_BASE + r.weight_next) sizes.weight)
    (tileAt m.1 (CLUSTER_4_BASE + r.bias) sizes.bias) m.2
  (if r.flags.testBit 4 then m.1 else fun a =>
    if CLUSTER_4_BASE + r.output ≤ a ∧ a < CLUSTER_4_BASE + r.output + sizes.output then
      acc.out l (a - (CLUSTER_4_BASE + r.output)) else m.1 a, l)

section Job

variable {L : Type}

def ita_wait_job : Op L := .wait .ita

/-- A job keeps the registers it is triggered with. -/
def ita_trigger (job : Mem × L → Mem × L) : Op L := .start .ita [job]

end Job

/-! ## Section 2: The jobs in order -/

/-- Which of two buffers is used. -/
def parity (t : Nat) : Bool := t % 2 = 1

theorem parity_succ (t : Nat) : parity (t + 1) = !parity t := by
  unfold parity
  by_cases h : t % 2 = 1
  · rw [decide_eq_true h, decide_eq_false (by omega)]
    rfl
  · rw [decide_eq_false h, decide_eq_true (by omega)]
    rfl

/-- The dimensions of a product, in tiles, and the base of the cluster. -/
structure Dims where
  N_TILE_SEQUENCE_LENGTH : Nat
  N_TILE_EMBEDDING_SPACE : Nat
  N_TILE_PROJECTION_SPACE : Nat
  TILE_SIZE_SEQUENCE_LENGTH : Nat
  TILE_SIZE_EMBEDDING_SPACE : Nat
  TILE_SIZE_PROJECTION_SPACE : Nat
  CLUSTER_4_BASE : Nat

namespace Dims

variable (d : Dims)

def tile_size_input_a : Nat := d.TILE_SIZE_SEQUENCE_LENGTH * d.TILE_SIZE_EMBEDDING_SPACE

def tile_size_input_b : Nat := d.TILE_SIZE_PROJECTION_SPACE * d.TILE_SIZE_EMBEDDING_SPACE

def tile_size_output : Nat := d.TILE_SIZE_SEQUENCE_LENGTH * d.TILE_SIZE_PROJECTION_SPACE

/-- `TILE_SIZE_PROJECTION_SPACE * sizeof(ita_int24_t)` -/
def tile_size_bias : Nat := d.TILE_SIZE_PROJECTION_SPACE * 3

def sizes : TileSizes where
  input := d.tile_size_input_a
  weight := d.tile_size_input_b
  bias := d.tile_size_bias
  output := d.tile_size_output

/-- The number of the jobs. -/
def jobs : Nat := d.N_TILE_SEQUENCE_LENGTH * d.N_TILE_PROJECTION_SPACE * d.N_TILE_EMBEDDING_SPACE

/-- The tile of the output that the job `t` belongs to, and its indices. -/
def tileOf (t : Nat) : Nat := t / d.N_TILE_EMBEDDING_SPACE

def iOf (t : Nat) : Nat := d.tileOf t / d.N_TILE_PROJECTION_SPACE

def jOf (t : Nat) : Nat := d.tileOf t % d.N_TILE_PROJECTION_SPACE

def kOf (t : Nat) : Nat := t % d.N_TILE_EMBEDDING_SPACE

/-- The dimensions are positive. -/
structure Shaped (d : Dims) : Prop where
  S : 0 < d.N_TILE_SEQUENCE_LENGTH
  E : 0 < d.N_TILE_EMBEDDING_SPACE
  P : 0 < d.N_TILE_PROJECTION_SPACE

variable {d}

theorem tile_index (d : Dims) (t : Nat) :
    d.iOf t * d.N_TILE_PROJECTION_SPACE + d.jOf t = d.tileOf t := Nat.div_add_mod' ..

theorem job_index (d : Dims) (t : Nat) :
    d.tileOf t * d.N_TILE_EMBEDDING_SPACE + d.kOf t = t := Nat.div_add_mod' ..

theorem first_iff (d : Dims) (t : Nat) : (d.iOf t = 0 ∧ d.jOf t = 0 ∧ d.kOf t = 0) ↔ t = 0 := by
  constructor
  · intro ⟨hi, hj, hk⟩
    have htile := tile_index d t
    have hjob := job_index d t
    rw [hi, hj] at htile
    rw [← htile, hk] at hjob
    omega
  · intro ht
    unfold iOf jOf kOf tileOf
    rw [ht, Nat.zero_mod, Nat.zero_div, Nat.zero_div, Nat.zero_mod]
    exact ⟨rfl, rfl, rfl⟩

theorem jOf_lt (hd : d.Shaped) (t : Nat) : d.jOf t < d.N_TILE_PROJECTION_SPACE := Nat.mod_lt _ hd.P

theorem kOf_lt (hd : d.Shaped) (t : Nat) : d.kOf t < d.N_TILE_EMBEDDING_SPACE := Nat.mod_lt _ hd.E

theorem tileOf_lt {t : Nat} (ht : t < d.jobs) :
    d.tileOf t < d.N_TILE_SEQUENCE_LENGTH * d.N_TILE_PROJECTION_SPACE := row_lt ht

theorem iOf_lt {t : Nat} (ht : t < d.jobs) : d.iOf t < d.N_TILE_SEQUENCE_LENGTH :=
  row_lt (tileOf_lt ht)

theorem last_iff (hd : d.Shaped) {t : Nat} (ht : t < d.jobs) :
    (d.iOf t = d.N_TILE_SEQUENCE_LENGTH - 1 ∧ d.jOf t = d.N_TILE_PROJECTION_SPACE - 1 ∧
      d.kOf t = d.N_TILE_EMBEDDING_SPACE - 1) ↔ t + 1 = d.jobs := by
  have htile := index_last (iOf_lt ht) (jOf_lt hd t)
  have hjob := index_last (tileOf_lt ht) (kOf_lt hd t)
  have hpos : 0 < d.N_TILE_SEQUENCE_LENGTH * d.N_TILE_PROJECTION_SPACE := Nat.mul_pos hd.S hd.P
  rw [tile_index] at htile
  rw [job_index] at hjob
  have hlast : d.tileOf t = d.N_TILE_SEQUENCE_LENGTH * d.N_TILE_PROJECTION_SPACE - 1 ↔
      d.tileOf t + 1 = d.N_TILE_SEQUENCE_LENGTH * d.N_TILE_PROJECTION_SPACE := by omega
  unfold jobs
  rw [hjob, hlast, htile, and_assoc]

/-- The indices of the next job. -/
theorem next_indices (hd : d.Shaped) (t : Nat) :
    d.jOf (t + 1) = (if d.kOf t = d.N_TILE_EMBEDDING_SPACE - 1 then
      (if d.jOf t = d.N_TILE_PROJECTION_SPACE - 1 then 0 else d.jOf t + 1) else d.jOf t) ∧
    d.kOf (t + 1) = (if d.kOf t = d.N_TILE_EMBEDDING_SPACE - 1 then 0 else d.kOf t + 1) := by
  constructor
  · unfold jOf tileOf
    rw [next_div t hd.E]
    unfold kOf
    split
    · rw [next_mod _ hd.P]
    · rfl
  · exact next_mod t hd.E

/-- The tile of the output before this one. -/
theorem prev_tile (hd : d.Shaped) {t : Nat} (hne : d.tileOf t ≠ 0) :
    (if d.jOf t = 0 then d.iOf t - 1 else d.iOf t) * d.N_TILE_PROJECTION_SPACE +
      (if d.jOf t = 0 then d.N_TILE_PROJECTION_SPACE - 1 else d.jOf t - 1) = d.tileOf t - 1 := by
  have htile := tile_index d t
  have hP := hd.P
  by_cases hj : d.jOf t = 0
  · rw [if_pos hj, if_pos hj]
    rw [hj] at htile
    have hi : d.iOf t ≠ 0 := by
      intro hi
      rw [hi, Nat.zero_mul] at htile
      omega
    obtain ⟨i, hi'⟩ := Nat.exists_eq_succ_of_ne_zero hi
    rw [hi', Nat.succ_mul] at htile
    rw [hi', Nat.succ_sub_one]
    omega
  · rw [if_neg hj, if_neg hj]
    omega

theorem prev_iff (d : Dims) (t : Nat) :
    (d.iOf t ≠ 0 ∨ d.jOf t ≠ 0) ↔ d.tileOf t ≠ 0 := by
  have htile := tile_index d t
  constructor
  · intro h hzero
    unfold iOf jOf at h
    rw [hzero, Nat.zero_div, Nat.zero_mod] at h
    omega
  · intro h
    by_contra hnot
    have hi : d.iOf t = 0 := by omega
    have hj : d.jOf t = 0 := by omega
    rw [hi, hj] at htile
    omega

/-- The flags of the job `t`. -/
def jobFlags (d : Dims) (t : Nat) : Nat :=
  ITA_FLAGS (if t = 0 then 1 else 0) (if t + 1 = d.jobs then 0 else 1) 0 0
    (if d.kOf t = d.N_TILE_EMBEDDING_SPACE - 1 then 0 else 1)

theorem output_flag {p q r : Prop} [Decidable p] [Decidable q] [Decidable r] :
    (ITA_FLAGS (if p then 1 else 0) (if q then 0 else 1) 0 0 (if r then 0 else 1)).testBit 4 =
      false ↔ r := by
  by_cases he : r
  · rw [if_pos he]
    apply iff_of_true _ he
    split <;> split <;> decide
  · rw [if_neg he]
    apply iff_of_false _ he
    split <;> split <;> decide

theorem next_flag {p q r : Prop} [Decidable p] [Decidable q] [Decidable r] :
    (ITA_FLAGS (if p then 1 else 0) (if q then 0 else 1) 0 0 (if r then 0 else 1)).testBit 1 =
      true ↔ ¬ q := by
  by_cases hq : q
  · rw [if_pos hq]
    apply iff_of_false _ (not_not_intro hq)
    split <;> split <;> decide
  · rw [if_neg hq]
    apply iff_of_true _ hq
    split <;> split <;> decide

/-- All jobs but the last one ask for the next weights. -/
theorem next_enabled (d : Dims) (t : Nat) : (d.jobFlags t).testBit 1 = true ↔ ¬ t + 1 = d.jobs :=
  next_flag

/-- The output is written by the last job of a tile alone. -/
theorem output_enabled (d : Dims) (t : Nat) :
    (d.jobFlags t).testBit 4 = false ↔ d.kOf t = d.N_TILE_EMBEDDING_SPACE - 1 :=
  output_flag

/-- A job is the last one of the tile `u` if the next tile begins behind
    it. -/
theorem last_of_tile (hd : d.Shaped) {t u : Nat} (h : (u + 1) * d.N_TILE_EMBEDDING_SPACE = t + 1) :
    d.tileOf t = u ∧ d.kOf t = d.N_TILE_EMBEDDING_SPACE - 1 := by
  have hE := hd.E
  rw [Nat.succ_mul] at h
  have ht : t = (d.N_TILE_EMBEDDING_SPACE - 1) + u * d.N_TILE_EMBEDDING_SPACE := by omega
  unfold tileOf kOf
  rw [ht, Nat.add_mul_div_right _ _ hE, Nat.add_mul_mod_self_right, Nat.div_eq_of_lt (by omega),
    Nat.mod_eq_of_lt (by omega), Nat.zero_add]
  exact ⟨rfl, rfl⟩

/-- A job is the first one of the tile `u + 1` if the tile `u` ends in front
    of it. -/
theorem first_of_tile (hd : d.Shaped) {t u : Nat} (h : (u + 1) * d.N_TILE_EMBEDDING_SPACE = t) :
    d.kOf t = 0 ∧ d.tileOf t = u + 1 := by
  unfold tileOf kOf
  rw [← h, Nat.mul_mod_left, Nat.mul_div_cancel _ hd.E]
  exact ⟨rfl, rfl⟩

theorem tile_lt (hd : d.Shaped) {t u : Nat} (ht : t ≤ d.jobs)
    (hu : (u + 1) * d.N_TILE_EMBEDDING_SPACE ≤ t) :
    u < d.N_TILE_SEQUENCE_LENGTH * d.N_TILE_PROJECTION_SPACE :=
  Nat.le_of_mul_le_mul_right (hu.trans ht) hd.E

/-- A tile of an array of tiles. -/
theorem tile_within {tiles u n p : Nat} (hu : u < tiles) :
    p ≤ p + u * n ∧ p + u * n + n ≤ p + tiles * n := by
  have hmul : (u + 1) * n ≤ tiles * n := Nat.mul_le_mul_right _ hu
  rw [Nat.succ_mul] at hmul
  omega

/-- Copies of one tile of the output leave the others. -/
theorem tile_outside {u v q n p : Nat} (hne : u ≠ v) (hq : q < n) :
    p + u * n + q < p + v * n ∨ p + v * n + n ≤ p + u * n + q := by
  obtain hlt | hlt := Nat.lt_or_gt_of_ne hne
  · have hmul : (u + 1) * n ≤ v * n := Nat.mul_le_mul_right n hlt
    rw [Nat.succ_mul] at hmul
    omega
  · have hmul : (v + 1) * n ≤ u * n := Nat.mul_le_mul_right n hlt
    rw [Nat.succ_mul] at hmul
    omega

/-! ### The jobs one after the other -/

/-- The state of the accelerator after `t` jobs, on the tiles that `input`,
    `weight`, `next` and `bias` name. -/
def stateAt {L : Type} (d : Dims) (acc : Accelerator L) (input weight next bias : Nat → Nat)
    (mem : Mem) (l : L) : Nat → L
  | 0 => l
  | t + 1 => acc.step (d.jobFlags t) (tileAt mem (input t) d.tile_size_input_a)
      (tileAt mem (weight t) d.tile_size_input_b)
      (nextAt (d.jobFlags t) mem (next t) d.tile_size_input_b)
        (tileAt mem (bias t) d.tile_size_bias)
      (d.stateAt acc input weight next bias mem l t)

end Dims

/-! ## Section 3: The program -/

/-- The arguments of `ita_compute_matmul_L2`. -/
structure ItaMatMul extends Dims where
  input_a_l2 : Nat
  input_b_l2 : Nat
  bias_l2 : Nat
  output_l2 : Nat
  input_a_l1 : Bool → Nat
  input_b_l1 : Bool → Nat
  bias_l1 : Nat
  output_l1 : Bool → Nat

/-- What has been done so far, with the buffer in use and the registers. -/
structure Gen (L : Type) where
  ops : List (Op L)
  index_buff : Bool
  regs : Regs

namespace ItaMatMul

open Dims

variable {L : Type} (x : ItaMatMul) (acc : Accelerator L)

/-- What is done for the indices `i` and `j`, in front of the loop over
    `k`. -/
def startBias [Runtime] (j : Nat) (g : Gen L) : Gen L :=
  let offset_bias := j * x.TILE_SIZE_PROJECTION_SPACE
  { g with ops := g.ops ++
      [snrt_dma_start_1d x.bias_l1 (x.bias_l2 + 3 * offset_bias) x.tile_size_bias] }

/-- The registers of the tile, from those before. -/
def setRegs (i j k : Nat) (index_buff : Bool) (regs : Regs) : Regs :=
  let is_first_tile := i = 0 ∧ j = 0 ∧ k = 0
  let is_last_tile := i = x.N_TILE_SEQUENCE_LENGTH - 1 ∧ j = x.N_TILE_PROJECTION_SPACE - 1 ∧
    k = x.N_TILE_EMBEDDING_SPACE - 1
  let index_buff_output := (i * x.N_TILE_PROJECTION_SPACE + j) % 2 = 1
  ita_set_flags (ITA_FLAGS (if is_first_tile then 1 else 0) (if is_last_tile then 0 else 1) 0 0
      (if k = x.N_TILE_EMBEDDING_SPACE - 1 then 0 else 1))
    (ita_set_addresses x.CLUSTER_4_BASE (x.input_a_l1 index_buff) (x.input_b_l1 index_buff)
      (x.input_b_l1 (!index_buff)) x.bias_l1 (x.output_l1 index_buff_output) regs)

/-- The body of the loops, with the registers of the tile. -/
def bodyOps [Runtime] (i j k : Nat) (index_buff : Bool) (regs : Regs) : List (Op L) :=
  let is_first_tile := i = 0 ∧ j = 0 ∧ k = 0
  let is_last_tile := i = x.N_TILE_SEQUENCE_LENGTH - 1 ∧ j = x.N_TILE_PROJECTION_SPACE - 1 ∧
    k = x.N_TILE_EMBEDDING_SPACE - 1
  let offset_input_a := (i * x.N_TILE_EMBEDDING_SPACE + k) * x.tile_size_input_a
  let next_k := if k = x.N_TILE_EMBEDDING_SPACE - 1 then 0 else k + 1
  let inc_j := if j = x.N_TILE_PROJECTION_SPACE - 1 then 0 else j + 1
  let next_j := if k = x.N_TILE_EMBEDDING_SPACE - 1 then inc_j else j
  let offset_input_b := (next_j * x.N_TILE_EMBEDDING_SPACE + next_k) * x.tile_size_input_b
  let prev_i := if j = 0 then i - 1 else i
  let prev_j := if j = 0 then x.N_TILE_PROJECTION_SPACE - 1 else j - 1
  let offset_output := (prev_i * x.N_TILE_PROJECTION_SPACE + prev_j) * x.tile_size_output
  let index_buff_output := (prev_i * x.N_TILE_PROJECTION_SPACE + prev_j) % 2 = 1
  [snrt_dma_start_1d (x.input_a_l1 index_buff) (x.input_a_l2 + offset_input_a) x.tile_size_input_a,
    snrt_dma_wait_all] ++
  ((if is_first_tile then [] else [ita_wait_job]) ++
  ((if is_last_tile then [] else
    [snrt_dma_start_1d (x.input_b_l1 (!index_buff)) (x.input_b_l2 + offset_input_b)
      x.tile_size_input_b]) ++
  (ita_trigger (acc.job x.CLUSTER_4_BASE x.sizes regs) ::
  -- the previous tile of the output is written back
  (if k = 0 ∧ (i ≠ 0 ∨ j ≠ 0) then
    [snrt_dma_start_1d (x.output_l2 + offset_output) (x.output_l1 index_buff_output)
      x.tile_size_output]
  else []))))

/-- A round of the innermost loop. -/
def body [Runtime] (i j k : Nat) (g : Gen L) : Gen L :=
  let regs := x.setRegs i j k g.index_buff g.regs
  { ops := g.ops ++ x.bodyOps acc i j k g.index_buff regs
    index_buff := !g.index_buff
    regs := regs }

/-- `ita_compute_matmul_L2`, on registers that may hold anything. -/
def ita_compute_matmul_L2 [Runtime] (regs : Regs) : Gen L :=
  (List.range x.N_TILE_SEQUENCE_LENGTH).foldl (fun g i =>
    (List.range x.N_TILE_PROJECTION_SPACE).foldl (fun g j =>
      (List.range x.N_TILE_EMBEDDING_SPACE).foldl (fun g k => x.body acc i j k g)
        (x.startBias j g)) g)
    { ops := [snrt_dma_start_1d (x.input_b_l1 false) x.input_b_l2 x.tile_size_input_b]
      index_buff := false
      regs := regs }

/-- What the caller does then: it waits for the last job and writes the last
    tile of the output back. -/
def writeLast [Runtime] : List (Op L) :=
  let prev_i_output := x.N_TILE_SEQUENCE_LENGTH - 1
  let prev_j_output := x.N_TILE_PROJECTION_SPACE - 1
  let offset_output :=
    (prev_i_output * x.N_TILE_PROJECTION_SPACE + prev_j_output) * x.tile_size_output
  let index_buff_output := (x.N_TILE_SEQUENCE_LENGTH * x.N_TILE_PROJECTION_SPACE - 1) % 2 = 1
  [ita_wait_job,
    snrt_dma_start_1d (x.output_l2 + offset_output) (x.output_l1 index_buff_output)
      x.tile_size_output,
    snrt_dma_wait_all]

/-! ## Section 4: Job after job -/

/-- Where the tiles lie that the job `t` is about, and the tile `u` of the
    output. -/
def inputTile (t : Nat) : Nat :=
  x.input_a_l2 + (x.iOf t * x.N_TILE_EMBEDDING_SPACE + x.kOf t) * x.tile_size_input_a

def weightTile (t : Nat) : Nat :=
  x.input_b_l2 + (x.jOf t * x.N_TILE_EMBEDDING_SPACE + x.kOf t) * x.tile_size_input_b

def biasTile (t : Nat) : Nat := x.bias_l2 + 3 * (x.jOf t * x.TILE_SIZE_PROJECTION_SPACE)

def resultTile (u : Nat) : Nat := x.output_l2 + u * x.tile_size_output

def startBiasOp (t : Nat) : Op L := snrt_dma_start_1d x.bias_l1 (x.biasTile t) x.tile_size_bias

/-- What is done for the job `t`. -/
def jobStep (t : Nat) (g : Gen L) : Gen L :=
  x.body acc (x.iOf t) (x.jOf t) (x.kOf t) (if x.kOf t = 0 then x.startBias (x.jOf t) g else g)

variable {x acc}

theorem inner_loop (hE : 0 < x.N_TILE_EMBEDDING_SPACE) (i j : Nat) (g : Gen L) :
    (List.range x.N_TILE_EMBEDDING_SPACE).foldl (fun g k => x.body acc i j k g) (x.startBias j g) =
      (List.range x.N_TILE_EMBEDDING_SPACE).foldl
        (fun g k => x.body acc i j k (if k = 0 then x.startBias j g else g)) g := by
  obtain ⟨e, he⟩ := Nat.exists_eq_succ_of_ne_zero hE.ne'
  rw [he, List.range_succ_eq_map, List.foldl_cons, List.foldl_cons, if_pos rfl, List.foldl_map,
    List.foldl_map]
  rfl

/-- The three loops as one loop over the jobs. -/
theorem loop_eq (hx : x.Shaped) (regs : Regs) : x.ita_compute_matmul_L2 acc regs =
    (List.range x.jobs).foldl (fun g t => x.jobStep acc t g)
      { ops := [snrt_dma_start_1d (x.input_b_l1 false) x.input_b_l2 x.tile_size_input_b]
        index_buff := false
        regs := regs } := by
  unfold ita_compute_matmul_L2 jobs
  simp only [inner_loop hx.E]
  rw [foldl_nested (fun i j g => (List.range x.N_TILE_EMBEDDING_SPACE).foldl
      (fun g k => x.body acc i j k (if k = 0 then x.startBias j g else g)) g),
    foldl_nested (fun u k g => x.body acc (u / x.N_TILE_PROJECTION_SPACE)
      (u % x.N_TILE_PROJECTION_SPACE) k
      (if k = 0 then x.startBias (u % x.N_TILE_PROJECTION_SPACE) g else g))]
  rfl

/-- All buffers lie behind the base of the cluster. -/
structure Above (x : ItaMatMul) : Prop where
  input_a : ∀ b, x.CLUSTER_4_BASE < x.input_a_l1 b
  input_b : ∀ b, x.CLUSTER_4_BASE < x.input_b_l1 b
  bias : x.CLUSTER_4_BASE < x.bias_l1
  output : ∀ b, x.CLUSTER_4_BASE < x.output_l1 b

/-- The registers of the job `t`. -/
def jobRegs (x : ItaMatMul) (t : Nat) : Regs where
  input := x.input_a_l1 (parity t) - x.CLUSTER_4_BASE
  weight := x.input_b_l1 (parity t) - x.CLUSTER_4_BASE
  weight_next := x.input_b_l1 (!parity t) - x.CLUSTER_4_BASE
  bias := x.bias_l1 - x.CLUSTER_4_BASE
  output := x.output_l1 (parity (x.tileOf t)) - x.CLUSTER_4_BASE
  flags := x.jobFlags t

/-- The transfers around the job `t`: the tile of the input, -/
def startInput (x : ItaMatMul) (t : Nat) : Op L :=
  snrt_dma_start_1d (x.input_a_l1 (parity t)) (x.inputTile t) x.tile_size_input_a

/-- the weights of the job after it -/
def startNext (x : ItaMatMul) (t : Nat) : Op L :=
  snrt_dma_start_1d (x.input_b_l1 (parity (t + 1))) (x.weightTile (t + 1)) x.tile_size_input_b

/-- and the tile `u` of the output. -/
def startOutput (x : ItaMatMul) (u : Nat) : Op L :=
  snrt_dma_start_1d (x.resultTile u) (x.output_l1 (parity u)) x.tile_size_output

/-- What comes before the trigger of the job `t` and has been waited for
    then, -/
def headOps (x : ItaMatMul) (t : Nat) : List (Op L) :=
  (if x.kOf t = 0 then [x.startBiasOp t] else []) ++
    ([x.startInput t, snrt_dma_wait_all] ++ (if t = 0 then [] else [ita_wait_job]))

/-- and what comes with it. -/
def tailOps (x : ItaMatMul) (acc : Accelerator L) (t : Nat) : List (Op L) :=
  (if t + 1 = x.jobs then [] else [x.startNext t]) ++
    (ita_trigger (acc.job x.CLUSTER_4_BASE x.sizes (x.jobRegs t)) ::
      (if x.kOf t = 0 ∧ x.tileOf t ≠ 0 then [x.startOutput (x.tileOf t - 1)] else []))

/-- With all buffers behind the base, the registers are the new ones. -/
theorem setRegs_eq (hx : x.Shaped) (habove : x.Above) {t : Nat} (ht : t < x.jobs) (regs : Regs) :
    x.setRegs (x.iOf t) (x.jOf t) (x.kOf t) (parity t) regs = x.jobRegs t := by
  have hfirst := first_iff x.toDims t
  have hlast := last_iff hx ht
  unfold setRegs ita_set_addresses jobRegs
  dsimp only
  rw [if_pos (habove.input_a _), if_pos (habove.input_b _), if_pos (habove.input_b _),
    if_pos habove.bias, if_pos (habove.output _), tile_index]
  simp only [hfirst, hlast]
  rfl

/-- **A round in terms of its job**: it fetches the input of the job and the
    weights of the next one, and writes the tile before back. -/
theorem body_eq (hx : x.Shaped) (acc : Accelerator L) {t : Nat} (ht : t < x.jobs) :
    (if x.kOf t = 0 then [x.startBiasOp t] else []) ++
      x.bodyOps acc (x.iOf t) (x.jOf t) (x.kOf t) (parity t) (x.jobRegs t) =
    x.headOps t ++ x.tailOps acc t := by
  have hfirst := first_iff x.toDims t
  have hlast := last_iff hx ht
  obtain ⟨hj, hk⟩ := next_indices hx t
  unfold bodyOps headOps tailOps startNext startOutput startInput inputTile weightTile resultTile
  dsimp only
  simp only [hfirst, hlast, prev_iff]
  rw [← hj, ← hk, parity_succ]
  by_cases hback : x.kOf t = 0 ∧ x.tileOf t ≠ 0
  · rw [if_pos hback, if_pos hback, prev_tile hx hback.2]
    simp only [List.append_assoc]
    rfl
  · rw [if_neg hback, if_neg hback]
    simp only [List.append_assoc]

/-- The program, job after job. -/
theorem ops_eq (hx : x.Shaped) (habove : x.Above) (regs : Regs) {n : Nat} (hn : n ≤ x.jobs) :
    ∃ regs', (List.range n).foldl (fun g t => x.jobStep acc t g)
      { ops := [snrt_dma_start_1d (x.input_b_l1 false) x.input_b_l2 x.tile_size_input_b]
        index_buff := false
        regs := regs } =
      { ops := snrt_dma_start_1d (x.input_b_l1 false) x.input_b_l2 x.tile_size_input_b ::
          (List.range n).flatMap fun t => x.headOps t ++ x.tailOps acc t
        index_buff := parity n
        regs := regs' } := by
  induction n with
  | zero => exact ⟨regs, rfl⟩
  | succ n ih =>
    obtain ⟨regs', hloop⟩ := ih (by omega)
    have hbody := body_eq hx acc (show n < x.jobs from hn)
    refine ⟨x.jobRegs n, ?_⟩
    rw [List.range_succ, List.foldl_append, hloop, List.flatMap_append, List.flatMap_singleton,
      ← hbody]
    show x.jobStep acc n _ = _
    unfold jobStep body
    by_cases hk : x.kOf n = 0
    · simp only [if_pos hk, startBias, setRegs_eq hx habove (show n < x.jobs from hn), parity_succ,
        List.cons_append, List.append_assoc]
      rfl
    · simp only [if_neg hk, setRegs_eq hx habove (show n < x.jobs from hn), parity_succ,
        List.cons_append, List.nil_append]

/-! ## Section 5: Buffers -/

/-- What the program reads and writes. -/
inductive Buffer where
  | inputA
  | inputB
  | biases
  | result
  | a (index_buff : Bool)
  | b (index_buff : Bool)
  | bias
  | out (index_buff : Bool)
  deriving DecidableEq

def Buffer.all : List Buffer :=
  [.inputA, .inputB, .biases, .result, .a false, .a true, .b false, .b true, .bias, .out false,
    .out true]

theorem Buffer.mem_all (r : Buffer) : r ∈ Buffer.all := by
  match r with
  | .inputA | .inputB | .biases | .result | .bias => decide
  | .a i | .b i | .out i => cases i <;> decide

def base (x : ItaMatMul) : Buffer → Nat
  | .inputA => x.input_a_l2
  | .inputB => x.input_b_l2
  | .biases => x.bias_l2
  | .result => x.output_l2
  | .a index_buff => x.input_a_l1 index_buff
  | .b index_buff => x.input_b_l1 index_buff
  | .bias => x.bias_l1
  | .out index_buff => x.output_l1 index_buff

def bytes (x : ItaMatMul) : Buffer → Nat
  | .inputA => x.N_TILE_SEQUENCE_LENGTH * x.N_TILE_EMBEDDING_SPACE * x.tile_size_input_a
  | .inputB => x.N_TILE_PROJECTION_SPACE * x.N_TILE_EMBEDDING_SPACE * x.tile_size_input_b
  | .biases => x.N_TILE_PROJECTION_SPACE * x.tile_size_bias
  | .result => x.N_TILE_SEQUENCE_LENGTH * x.N_TILE_PROJECTION_SPACE * x.tile_size_output
  | .a _ => x.tile_size_input_a
  | .b _ => x.tile_size_input_b
  | .bias => x.tile_size_bias
  | .out _ => x.tile_size_output

/-- The buffers the program writes. -/
def Buffer.written : Buffer → Bool
  | .inputA | .inputB | .biases => false
  | .result | .a _ | .b _ | .bias | .out _ => true

/-- The address `p` lies in the buffer. -/
def In (x : ItaMatMul) (r : Buffer) (p : Nat) : Prop := x.base r ≤ p ∧ p < x.base r + x.bytes r

/-- The `n` bytes at `p` lie in the buffer. -/
def Within (x : ItaMatMul) (r : Buffer) (p n : Nat) : Prop :=
  x.base r ≤ p ∧ p + n ≤ x.base r + x.bytes r

/-- The buffers lie apart from each other. -/
def Placed (x : ItaMatMul) : Prop :=
  ∀ r s, r ≠ s → Apart (x.base r) (x.bytes r) (x.base s) (x.bytes s)

instance (x : ItaMatMul) : Decidable x.Placed :=
  decidable_of_iff (∀ r ∈ Buffer.all, ∀ s ∈ Buffer.all, r ≠ s →
      Apart (x.base r) (x.bytes r) (x.base s) (x.bytes s))
    ⟨fun h r s => h r r.mem_all s s.mem_all, fun h r _ s _ => h r s⟩

theorem Within.add {r : Buffer} {p n q : Nat} (h : x.Within r p n) (hq : q < n) :
    x.In r (p + q) := by
  unfold Within at h
  exact ⟨by omega, by omega⟩

theorem Placed.not_in (hx : x.Placed) {r s : Buffer} {p : Nat} (hne : r ≠ s) (h : x.In r p) :
    ¬ x.In s p := by
  have hapart := hx r s hne
  unfold Apart at hapart
  unfold In at h ⊢
  omega

theorem Placed.ne (hx : x.Placed) {r s : Buffer} {p q : Nat} (hne : r ≠ s) (hp : x.In r p)
    (hq : x.In s q) : p ≠ q := by
  intro heq
  exact hx.not_in hne hp (heq ▸ hq)

theorem Placed.apart (hx : x.Placed) {r s : Buffer} {p q n : Nat} (hne : r ≠ s)
    (hp : x.Within r p n) (hq : x.Within s q n) : Apart p n q n :=
  (hx r s hne).mono hp.1 hp.2 hq.1 hq.2

theorem within_inputA {t : Nat} (hx : x.Shaped) (ht : t < x.jobs) :
    x.Within .inputA (x.inputTile t) x.tile_size_input_a :=
  tile_within (index_lt (iOf_lt ht) (kOf_lt hx t))

theorem within_inputB (hx : x.Shaped) (t : Nat) :
    x.Within .inputB (x.weightTile t) x.tile_size_input_b :=
  tile_within (index_lt (jOf_lt hx t) (kOf_lt hx t))

theorem within_biases (hx : x.Shaped) (t : Nat) :
    x.Within .biases (x.biasTile t) x.tile_size_bias := by
  have hoffset : 3 * (x.jOf t * x.TILE_SIZE_PROJECTION_SPACE) = x.jOf t * x.tile_size_bias := by
    unfold tile_size_bias
    rw [← Nat.mul_assoc, Nat.mul_comm 3, Nat.mul_assoc, Nat.mul_comm 3]
  unfold biasTile
  rw [hoffset]
  exact tile_within (jOf_lt hx t)

theorem within_result {u : Nat} (hu : u < x.N_TILE_SEQUENCE_LENGTH * x.N_TILE_PROJECTION_SPACE) :
    x.Within .result (x.resultTile u) x.tile_size_output := tile_within hu

theorem within_self (r : Buffer) : x.Within r (x.base r) (x.bytes r) := ⟨le_rfl, le_rfl⟩

theorem in_a {b : Bool} {q : Nat} (hq : q < x.tile_size_input_a) :
    x.In (.a b) (x.input_a_l1 b + q) :=
  (within_self (.a b)).add hq

theorem in_b {b : Bool} {q : Nat} (hq : q < x.tile_size_input_b) :
    x.In (.b b) (x.input_b_l1 b + q) :=
  (within_self (.b b)).add hq

theorem in_bias {q : Nat} (hq : q < x.tile_size_bias) : x.In .bias (x.bias_l1 + q) :=
  (within_self .bias).add hq

theorem in_out {b : Bool} {q : Nat} (hq : q < x.tile_size_output) :
    x.In (.out b) (x.output_l1 b + q) :=
  (within_self (.out b)).add hq

/-! ### What copies and jobs commute with -/

/-- `f` copies a byte from the buffer `s` to the buffer `r`. -/
def Copies (x : ItaMatMul) (r s : Buffer) (f : Mem × L → Mem × L) : Prop :=
  ∃ dst src, x.In r dst ∧ x.In s src ∧ f = copyByte dst src

theorem copies_of_transfer {r s : Buffer} {dst src n : Nat} (hdst : x.Within r dst n)
    (hsrc : x.Within s src n) :
    ∀ f ∈ (transfer dst src n : List (Mem × L → Mem × L)), x.Copies r s f := by
  intro f hf
  obtain ⟨q, hq, rfl⟩ := mem_transfer hf
  exact ⟨dst + q, src + q, hdst.add hq, hsrc.add hq, rfl⟩

variable {I : Mem × L → Prop} {f g : Mem × L → Mem × L} {r s r' s' : Buffer}

theorem Copies.comm (hx : x.Placed) (hf : x.Copies r s f) (hg : x.Copies r' s' g) (hdst : r ≠ r')
    (hsrc : s ≠ r') (hsrc' : s' ≠ r) : CommuteOn I f g := by
  obtain ⟨dst, src, hd, hs, rfl⟩ := hf
  obtain ⟨dst', src', hd', hs', rfl⟩ := hg
  exact copyByte_comm (hx.ne hdst hd hd') (hx.ne hsrc hs hd') (hx.ne hsrc' hs' hd)

/-- The bytes that the job `t` depends on. -/
def Reads (x : ItaMatMul) (acc : Accelerator L) (t : Nat) (p : Nat) : Prop :=
  x.In (.a (parity t)) p ∨ x.In (.b (parity t)) p ∨ x.In .bias p ∨
    (¬ acc.IgnoresNext ∧ x.In (.b (parity (t + 1))) p)

/-- The bytes that the job `t` writes. -/
def Writes (x : ItaMatMul) (t : Nat) (p : Nat) : Prop :=
  (x.jobFlags t).testBit 4 = false ∧ x.In (.out (parity (x.tileOf t))) p

/-- The job `t`. -/
def job (x : ItaMatMul) (acc : Accelerator L) (t : Nat) : Mem × L → Mem × L :=
  acc.job x.CLUSTER_4_BASE x.sizes (x.jobRegs t)

/-- The state of the accelerator after the job `t`, read off the buffers. -/
def jobState (x : ItaMatMul) (acc : Accelerator L) (t : Nat) (m : Mem × L) : L :=
  acc.step (x.jobFlags t) (tileAt m.1 (x.input_a_l1 (parity t)) x.tile_size_input_a)
    (tileAt m.1 (x.input_b_l1 (parity t)) x.tile_size_input_b)
    (nextAt (x.jobFlags t) m.1 (x.input_b_l1 (parity (t + 1))) x.tile_size_input_b)
    (tileAt m.1 x.bias_l1 x.tile_size_bias) m.2

/-- A job, without the offsets into the cluster. -/
theorem job_eq (habove : x.Above) (acc : Accelerator L) (t : Nat) (m : Mem × L) :
    x.job acc t m =
      (if (x.jobFlags t).testBit 4 then m.1 else fun p =>
        if x.output_l1 (parity (x.tileOf t)) ≤ p ∧
            p < x.output_l1 (parity (x.tileOf t)) + x.tile_size_output then
          acc.out (x.jobState acc t m) (p - x.output_l1 (parity (x.tileOf t))) else m.1 p,
        x.jobState acc t m) := by
  have ha := Nat.add_sub_cancel' (habove.input_a (parity t)).le
  have hb := Nat.add_sub_cancel' (habove.input_b (parity t)).le
  have hnext := Nat.add_sub_cancel' (habove.input_b (!parity t)).le
  have hbias := Nat.add_sub_cancel' habove.bias.le
  have hout := Nat.add_sub_cancel' (habove.output (parity (x.tileOf t))).le
  unfold job Accelerator.job jobState
  simp only [jobRegs, sizes, ha, hb, hnext, hbias, hout, parity_succ]

theorem job_footprint (habove : x.Above) (acc : Accelerator L) (t : Nat) :
    Footprint (x.Reads acc t) (x.Writes t) (x.job acc t) := by
  constructor
  · intro m p hp
    rw [job_eq habove]
    dsimp only
    by_cases hflag : (x.jobFlags t).testBit 4 = true
    · rw [if_pos hflag]
    · rw [if_neg hflag]
      exact if_neg fun hin => hp ⟨Bool.eq_false_iff.mpr hflag, hin⟩
  · intro m m' hread hstate
    have hsame : x.jobState acc t m = x.jobState acc t m' := by
      have hinput : tileAt m.1 (x.input_a_l1 (parity t)) x.tile_size_input_a =
          tileAt m'.1 (x.input_a_l1 (parity t)) x.tile_size_input_a :=
        tileAt_congr fun q hq => hread _ (.inl (in_a hq))
      have hweight : tileAt m.1 (x.input_b_l1 (parity t)) x.tile_size_input_b =
          tileAt m'.1 (x.input_b_l1 (parity t)) x.tile_size_input_b :=
        tileAt_congr fun q hq => hread _ (.inr (.inl (in_b hq)))
      have hbias : tileAt m.1 x.bias_l1 x.tile_size_bias = tileAt m'.1 x.bias_l1 x.tile_size_bias :=
        tileAt_congr fun q hq => hread _ (.inr (.inr (.inl (in_bias hq))))
      unfold jobState
      rw [hinput, hweight, hbias, hstate]
      by_cases hignores : acc.IgnoresNext
      · exact hignores ..
      · have hnext : nextAt (x.jobFlags t) m.1 (x.input_b_l1 (parity (t + 1))) x.tile_size_input_b =
            nextAt (x.jobFlags t) m'.1 (x.input_b_l1 (parity (t + 1))) x.tile_size_input_b :=
          nextAt_congr fun _ q hq => hread _ (.inr (.inr (.inr ⟨hignores, in_b hq⟩)))
        rw [hnext]
    rw [job_eq habove, job_eq habove]
    refine ⟨hsame, ?_⟩
    intro p ⟨hflag, hp⟩
    have hflag' : ¬ (x.jobFlags t).testBit 4 = true := by
      rw [hflag]
      exact Bool.false_ne_true
    have hp' : x.output_l1 (parity (x.tileOf t)) ≤ p ∧
        p < x.output_l1 (parity (x.tileOf t)) + x.tile_size_output := hp
    dsimp only
    rw [if_neg hflag', if_neg hflag', if_pos hp', if_pos hp', hsame]

theorem Copies.job_comm (hx : x.Placed) (habove : x.Above) {t : Nat} (hf : x.Copies r s f)
    (ha : r ≠ .a (parity t)) (hb : r ≠ .b (parity t)) (hbias : r ≠ .bias)
    (hnext : acc.IgnoresNext ∨ r ≠ .b (parity (t + 1)))
    (hout : r ≠ .out (parity (x.tileOf t))) (hsrc : s ≠ .out (parity (x.tileOf t))) :
    CommuteOn I (x.job acc t) f := by
  obtain ⟨dst, src, hd, hs, rfl⟩ := hf
  apply (job_footprint habove acc t).comm_copyByte
  · rintro (h | h | h | ⟨hreads, h⟩)
    · exact hx.not_in ha hd h
    · exact hx.not_in hb hd h
    · exact hx.not_in hbias hd h
    · obtain hignores | hne := hnext
      · exact hreads hignores
      · exact hx.not_in hne hd h
  · intro ⟨_, h⟩
    exact hx.not_in hout hd h
  · intro ⟨_, h⟩
    exact hx.not_in hsrc hs h

/-- The buffer `r` holds the tile at `p`. -/
def Holds (x : ItaMatMul) (r : Buffer) (p : Nat) (m : Mem × L) : Prop :=
  ∀ q, q < x.bytes r → m.1 (x.base r + q) = m.1 (p + q)

theorem Copies.keeps_holds (hx : x.Placed) {p : Nat} {b c : Buffer} (hp : x.Within c p (x.bytes b))
    (hf : x.Copies r s f) (hb : r ≠ b) (hc : r ≠ c) : Keeps (x.Holds b p) f := by
  obtain ⟨dst, src, hd, _, rfl⟩ := hf
  intro m hm q hq
  have hq₁ : x.base b + q ≠ dst := hx.ne hb.symm ((within_self b).add hq) hd
  have hq₂ : p + q ≠ dst := hx.ne hc.symm (hp.add hq) hd
  show Function.update m.1 dst (m.1 src) _ = Function.update m.1 dst (m.1 src) _
  rw [Function.update_of_ne hq₁, Function.update_of_ne hq₂]
  exact hm q hq

theorem job_keeps_holds (hx : x.Placed) (habove : x.Above) {p t : Nat} {b c : Buffer}
    (hp : x.Within c p (x.bytes b)) (hb : ∀ i, b ≠ .out i) (hc : ∀ i, c ≠ .out i) :
    Keeps (x.Holds b p) (x.job acc t) := by
  intro m hm q hq
  have hwrites := (job_footprint habove acc t).writes m
  have hself : ¬ x.Writes t (x.base b + q) := fun h =>
    hx.not_in (hb _) ((within_self b).add hq) h.2
  have hsource : ¬ x.Writes t (p + q) := fun h => hx.not_in (hc _) (hp.add hq) h.2
  rw [hwrites _ hself, hwrites _ hsource]
  exact hm q hq

/-- Copying a tile that is there changes nothing. -/
theorem transfer_idle {p : Nat} {b : Buffer} (hf : f ∈ transfer (x.base b) p (x.bytes b))
    (m : Mem × L) (hm : x.Holds b p m) : f m = m := by
  obtain ⟨q, hq, rfl⟩ := mem_transfer hf
  unfold copyByte
  rw [← hm q hq, Function.update_eq_self]

/-! ## Section 6: What may overlap -/

def weightCopies (x : ItaMatMul) (t : Nat) : List (Mem × L → Mem × L) :=
  transfer (x.input_b_l1 (parity t)) (x.weightTile t) x.tile_size_input_b

def outputCopies (x : ItaMatMul) (t : Nat) : List (Mem × L → Mem × L) :=
  if x.kOf t = 0 ∧ x.tileOf t ≠ 0 then
    transfer (x.resultTile (x.tileOf t - 1)) (x.output_l1 (parity (x.tileOf t - 1)))
      x.tile_size_output
  else []

def biasCopies (x : ItaMatMul) (t : Nat) : List (Mem × L → Mem × L) :=
  if x.kOf t = 0 then transfer x.bias_l1 (x.biasTile t) x.tile_size_bias else []

def inputCopies (x : ItaMatMul) (t : Nat) : List (Mem × L → Mem × L) :=
  transfer (x.input_a_l1 (parity t)) (x.inputTile t) x.tile_size_input_a

theorem work_start {e : Engine} (fs : List (Mem × L → Mem × L)) :
    work [(.start e fs : Op L)] = fs := List.append_nil fs

theorem work_headOps (t : Nat) :
    work (x.headOps t : List (Op L)) = x.biasCopies t ++ x.inputCopies t := by
  unfold headOps biasCopies
  rw [work_append, work_append]
  congr 1
  · split
    · exact work_start _
    · rfl
  · have hwait : work (if t = 0 then [] else [ita_wait_job] : List (Op L)) = [] := by split <;> rfl
    rw [hwait, List.append_nil]
    exact work_start _

theorem work_tailOps {t : Nat} :
    work (x.tailOps acc t) =
      (if t + 1 = x.jobs then [] else x.weightCopies (t + 1)) ++
        x.job acc t :: x.outputCopies t := by
  unfold tailOps outputCopies
  rw [work_append, work_cons]
  congr 1
  · split
    · rfl
    · exact work_start _
  · show x.job acc t :: work _ = _
    congr 1
    split
    · exact work_start _
    · rfl

theorem copies_weight (hx : x.Shaped) {t : Nat} :
    ∀ f ∈ (x.weightCopies t : List (Mem × L → Mem × L)), x.Copies (.b (parity t)) .inputB f :=
  copies_of_transfer (within_self (.b (parity t))) (within_inputB hx t)

theorem parity_ne (t : Nat) : parity (t + 1) ≠ parity t := by
  rw [parity_succ]
  exact Bool.not_ne_self _

theorem copies_output {t : Nat} (ht : t < x.jobs) :
    ∀ f ∈ (x.outputCopies t : List (Mem × L → Mem × L)),
      x.Copies .result (.out (!parity (x.tileOf t))) f := by
  intro f hf
  unfold outputCopies at hf
  split at hf
  · next hback =>
    obtain ⟨u, hu⟩ := Nat.exists_eq_succ_of_ne_zero hback.2
    have hlt := tileOf_lt ht
    rw [hu, Nat.succ_sub_one] at hf
    rw [hu, parity_succ, Bool.not_not]
    exact copies_of_transfer (within_result (by omega)) (within_self (.out (parity u))) f hf
  · exact absurd hf List.not_mem_nil

theorem copies_bias (hx : x.Shaped) {t : Nat} :
    ∀ f ∈ (x.biasCopies t : List (Mem × L → Mem × L)),
      x.Copies .bias .biases f ∧ f ∈ transfer x.bias_l1 (x.biasTile t) x.tile_size_bias := by
  intro f hf
  unfold biasCopies at hf
  split at hf
  · exact ⟨copies_of_transfer (within_self .bias) (within_biases hx t) f hf, hf⟩
  · exact absurd hf List.not_mem_nil

theorem copies_input (hx : x.Shaped) {t : Nat} (ht : t < x.jobs) :
    ∀ f ∈ (x.inputCopies t : List (Mem × L → Mem × L)), x.Copies (.a (parity t)) .inputA f :=
  copies_of_transfer (within_self (.a (parity t))) (within_inputA hx ht)

section Pairwise

variable {t : Nat}

theorem weight_pairwise (hx : x.Shaped) (hplaced : x.Placed) :
    (x.weightCopies t).Pairwise (CommuteOn I) :=
  transfer_pairwise (hplaced.apart (r := .b (parity t)) (s := .inputB) (by simp)
    (within_self _) (within_inputB hx t))

theorem input_pairwise (hx : x.Shaped) (hplaced : x.Placed) (ht : t < x.jobs) :
    (x.inputCopies t).Pairwise (CommuteOn I) :=
  transfer_pairwise (hplaced.apart (r := .a (parity t)) (s := .inputA) (by simp)
    (within_self _) (within_inputA hx ht))

theorem bias_pairwise (hx : x.Shaped) (hplaced : x.Placed) :
    (x.biasCopies t).Pairwise (CommuteOn I) := by
  unfold biasCopies
  split
  · exact transfer_pairwise (hplaced.apart (r := .bias) (s := .biases) (by simp)
      (within_self _) (within_biases hx t))
  · exact List.Pairwise.nil

theorem result_apart (hplaced : x.Placed) {u : Nat} (b : Bool)
    (hu : u < x.N_TILE_SEQUENCE_LENGTH * x.N_TILE_PROJECTION_SPACE) :
    Apart (x.resultTile u) x.tile_size_output (x.output_l1 b) x.tile_size_output :=
  hplaced.apart (r := .result) (s := .out b) (by simp) (within_result hu) (within_self _)

theorem output_pairwise (hplaced : x.Placed) (ht : t < x.jobs) :
    (x.outputCopies t).Pairwise (CommuteOn I) := by
  unfold outputCopies
  have hlt := tileOf_lt ht
  split
  · exact transfer_pairwise (result_apart hplaced _ (by omega))
  · exact List.Pairwise.nil

/-- The job and the tile of the output that is written back meanwhile. -/
theorem job_output_pairwise (hplaced : x.Placed) (habove : x.Above) (ht : t < x.jobs) :
    (x.job acc t :: x.outputCopies t).Pairwise (CommuteOn I) := by
  apply List.Pairwise.cons _ (output_pairwise hplaced ht)
  intro f hf
  have hcopies := copies_output ht f hf
  exact hcopies.job_comm hplaced habove (by simp) (by simp) (by simp) (by simp) (by simp) (by simp)

/-- The transfers for the job `t`. -/
theorem head_pairwise (hx : x.Shaped) (hplaced : x.Placed) (ht : t < x.jobs) :
    (x.biasCopies t ++ x.inputCopies t).Pairwise (CommuteOn I) := by
  apply List.pairwise_append.mpr
  refine ⟨bias_pairwise hx hplaced, input_pairwise hx hplaced ht, ?_⟩
  intro f hf g hg
  exact (copies_bias hx f hf).1.comm hplaced (copies_input hx ht g hg) (by simp) (by simp) (by simp)

/-- The transfers for the job `t` find the bias in its buffer, and if the
    accelerator depends on the next weights, also these. -/
def Settled (x : ItaMatMul) (acc : Accelerator L) (t : Nat) (m : Mem × L) : Prop :=
  x.Holds .bias (x.biasTile t) m ∧ (acc.IgnoresNext ∨ x.Holds (.b (parity t)) (x.weightTile t) m)

theorem Copies.keeps_settled (hx : x.Shaped) (hplaced : x.Placed) (hf : x.Copies r s f)
    (hbias : r ≠ .bias) (hbiases : r ≠ .biases) (hb : r ≠ .b (parity t)) (hinput : r ≠ .inputB) :
    Keeps (x.Settled acc t) f := by
  intro m ⟨hm, hm'⟩
  refine ⟨hf.keeps_holds hplaced (c := .biases) (within_biases hx t) hbias hbiases m hm, ?_⟩
  exact hm'.imp_right (hf.keeps_holds hplaced (c := .inputB) (within_inputB hx t) hb hinput m)

theorem job_keeps_settled (hx : x.Shaped) (hplaced : x.Placed) (habove : x.Above) {t t' : Nat} :
    Keeps (x.Settled acc t') (x.job acc t) := by
  intro m ⟨hm, hm'⟩
  refine ⟨job_keeps_holds hplaced habove (c := .biases) (within_biases hx t') (by simp) (by simp)
    m hm, ?_⟩
  exact hm'.imp_right (job_keeps_holds hplaced habove (c := .inputB) (within_inputB hx t') (by simp)
    (by simp) m)

theorem bias_keeps_settled (hx : x.Shaped) (hf : f ∈ x.biasCopies t) :
    Keeps (x.Settled acc t) f := by
  intro m hm
  rw [transfer_idle (b := .bias) (copies_bias hx f hf).2 m hm.1]
  exact hm

theorem weight_keeps_settled (hx : x.Shaped) (hplaced : x.Placed) (hf : f ∈ x.weightCopies t) :
    Keeps (x.Settled acc t) f := by
  have hcopies := copies_weight hx f hf
  intro m ⟨hm, hm'⟩
  refine ⟨hcopies.keeps_holds hplaced (c := .biases) (within_biases hx t) (by simp) (by simp)
    m hm, ?_⟩
  apply hm'.imp_right
  intro hholds
  rwa [transfer_idle (b := .b (parity t)) hf m hholds]

/-- The job `t` and the transfer of the next weights: either the job does not
    depend on them, or they are copied over themselves. -/
theorem weight_job_comm (hx : x.Shaped) (hplaced : x.Placed) (habove : x.Above)
    (hf : f ∈ x.weightCopies (t + 1)) :
    CommuteOn (x.Settled acc (t + 1)) f (x.job acc t) := by
  have hother := parity_ne t
  by_cases hignores : acc.IgnoresNext
  · exact ((copies_weight hx f hf).job_comm hplaced habove (by simp) (by simpa using hother)
      (by simp) (.inl hignores) (by simp) (by simp)).symm
  · apply commuteOn_of_idle _ (job_keeps_settled hx hplaced habove)
    intro m hm
    exact transfer_idle (b := .b (parity (t + 1))) hf m (hm.2.resolve_left hignores)

/-- Whatever is done while the accelerator works on the job `t` commutes,
    as long as what it reads stays the same. -/
theorem middle_pairwise (hx : x.Shaped) (hplaced : x.Placed) (habove : x.Above)
    (ht : t + 1 < x.jobs) :
    ((x.weightCopies (t + 1) ++ x.job acc t :: x.outputCopies t) ++
      (x.biasCopies (t + 1) ++ x.inputCopies (t + 1))).Pairwise
      (CommuteOn (x.Settled acc (t + 1))) := by
  have hother := parity_ne t
  have ht' : t < x.jobs := by omega
  apply List.pairwise_append.mpr
  refine ⟨List.pairwise_append.mpr ⟨weight_pairwise hx hplaced,
    job_output_pairwise hplaced habove ht', ?_⟩, head_pairwise hx hplaced ht, ?_⟩
  · intro f hf g hg
    obtain rfl | hg := List.mem_cons.mp hg
    · exact weight_job_comm hx hplaced habove hf
    · exact (copies_weight hx f hf).comm hplaced (copies_output ht' g hg) (by simp) (by simp)
        (by simp)
  · intro f hf g hg
    obtain hf | hf := List.mem_append.mp hf
    · have hf' := copies_weight hx f hf
      obtain hg | hg := List.mem_append.mp hg
      · exact hf'.comm hplaced (copies_bias hx g hg).1 (by simp) (by simp) (by simp)
      · exact hf'.comm hplaced (copies_input hx ht g hg) (by simp) (by simp) (by simp)
    obtain rfl | hf := List.mem_cons.mp hf
    · obtain hg | hg := List.mem_append.mp hg
      · -- the job reads the bias, which is copied over itself
        exact (commuteOn_of_idle
          (fun m hm => transfer_idle (b := .bias) (copies_bias hx g hg).2 m hm.1)
          (job_keeps_settled hx hplaced habove)).symm
      · exact (copies_input hx ht g hg).job_comm hplaced habove (by simpa using hother) (by simp)
          (by simp) (by simp) (by simp) (by simp)
    · have hf' := copies_output ht' f hf
      obtain hg | hg := List.mem_append.mp hg
      · exact hf'.comm hplaced (copies_bias hx g hg).1 (by simp) (by simp) (by simp)
      · exact hf'.comm hplaced (copies_input hx ht g hg) (by simp) (by simp) (by simp)

theorem middle_keeps (hx : x.Shaped) (hplaced : x.Placed) (habove : x.Above) (ht : t + 1 < x.jobs) :
    ∀ f ∈ (x.weightCopies (t + 1) ++ x.job acc t :: x.outputCopies t) ++
      (x.biasCopies (t + 1) ++ x.inputCopies (t + 1)), Keeps (x.Settled acc (t + 1)) f := by
  intro f hf
  obtain hf | hf := List.mem_append.mp hf
  · obtain hf | hf := List.mem_append.mp hf
    · exact weight_keeps_settled hx hplaced hf
    obtain rfl | hf := List.mem_cons.mp hf
    · exact job_keeps_settled hx hplaced habove
    · exact (copies_output (by omega) f hf).keeps_settled hx hplaced (by simp) (by simp) (by simp)
        (by simp)
  · obtain hf | hf := List.mem_append.mp hf
    · exact bias_keeps_settled hx hf
    · exact (copies_input hx ht f hf).keeps_settled hx hplaced (by simp) (by simp) (by simp)
        (by simp)

end Pairwise

/-! ## Section 7: What a stretch leaves -/

/-- Only the buffer `r` may differ. -/
def Only (x : ItaMatMul) (r : Buffer) (m m' : Mem × L) : Prop := ∀ p, ¬ x.In r p → m'.1 p = m.1 p

theorem Only.same (hx : x.Placed) {m m' : Mem × L} (h : x.Only r m m') (hne : s ≠ r) {p : Nat}
    (hp : x.In s p) : m'.1 p = m.1 p := h p (hx.not_in hne hp)

theorem perform_only {fs : List (Mem × L → Mem × L)} (hfs : ∀ f ∈ fs, x.Copies r s f)
    (m : Mem × L) : x.Only r m (perform fs m) ∧ (perform fs m).2 = m.2 := by
  induction fs generalizing m with
  | nil => exact ⟨fun _ _ => rfl, rfl⟩
  | cons f fs ih =>
    obtain ⟨honly, hstate⟩ := ih (fun g hg => hfs g (List.mem_cons_of_mem f hg)) (f m)
    obtain ⟨dst, src, hdst, _, rfl⟩ := hfs f List.mem_cons_self
    refine ⟨?_, hstate⟩
    intro p hp
    have hne : p ≠ dst := fun heq => hp (heq ▸ hdst)
    rw [perform_cons, honly p hp]
    exact Function.update_of_ne hne _ _

theorem job_only (habove : x.Above) (t : Nat) (m : Mem × L) :
    x.Only (.out (parity (x.tileOf t))) m (x.job acc t m) ∧
      (x.job acc t m).2 = x.jobState acc t m := by
  refine ⟨?_, ?_⟩
  · intro p hp
    exact (job_footprint habove acc t).writes m p fun h => hp h.2
  · rw [job_eq habove]

/-- The state of the accelerator after `t` jobs on the tiles of the
    matrices. -/
def stateAt (x : ItaMatMul) (acc : Accelerator L) (mem : Mem) (l : L) (t : Nat) : L :=
  x.toDims.stateAt acc x.inputTile x.weightTile (fun t => x.weightTile (t + 1)) x.biasTile mem l t

/-- The byte `q` of the tile `u` of the output, when its last job is
    done. -/
def outputByte (x : ItaMatMul) (acc : Accelerator L) (mem : Mem) (l : L) (u q : Nat) : UInt8 :=
  acc.out (x.stateAt acc mem l ((u + 1) * x.N_TILE_EMBEDDING_SPACE)) q

/-- All tiles of the bias are alike. -/
def SameBias (x : ItaMatMul) (mem : Mem) : Prop :=
  ∀ j q, j < x.N_TILE_PROJECTION_SPACE → q < x.tile_size_bias →
    mem (x.bias_l2 + 3 * (j * x.TILE_SIZE_PROJECTION_SPACE) + q) = mem (x.bias_l2 + q)

/-- The tile of the bias for the job `t` is like the first one. -/
def BiasAlike (x : ItaMatMul) (mem : Mem) (t : Nat) : Prop :=
  ∀ q, q < x.tile_size_bias → mem (x.biasTile t + q) = mem (x.bias_l2 + q)

theorem SameBias.alike {mem : Mem} (h : x.SameBias mem) (hx : x.Shaped) (t : Nat) :
    x.BiasAlike mem t := fun q hq => h (x.jOf t) q (jOf_lt hx t) hq

theorem biasAlike_zero (x : ItaMatMul) (mem : Mem) : x.BiasAlike mem 0 := by
  intro q _
  unfold biasTile jOf tileOf
  rw [Nat.zero_div, Nat.zero_mod, Nat.zero_mul, Nat.mul_zero, Nat.add_zero]

/-- Where the bytes come from that lie in the buffer of the next weights in
    front of the job `t`: they are those of the job before. -/
def heldTile (x : ItaMatMul) : Nat → Nat
  | 0 => x.input_b_l1 true
  | t + 1 => x.weightTile t

/-- The weights that are fetched during the job `t` are in their buffer
    already. -/
def NextAlike (x : ItaMatMul) (mem : Mem) (t : Nat) : Prop :=
  ∀ q, q < x.tile_size_input_b → mem (x.heldTile t + q) = mem (x.weightTile (t + 1) + q)

/-- No transfer of weights changes its buffer while the accelerator works. -/
def SameNext (x : ItaMatMul) (mem : Mem) : Prop := ∀ t, t + 1 < x.jobs → x.NextAlike mem t

/-- The accelerator has done `t` jobs, and the tiles of the output before
    the job `t` are finished, the latest one in its buffer. -/
structure Results (x : ItaMatMul) (acc : Accelerator L) (mem : Mem) (l : L) (t : Nat)
    (m : Mem × L) : Prop where
  state : m.2 = x.stateAt acc mem l t
  finished : ∀ u q, (u + 1) * x.N_TILE_EMBEDDING_SPACE < t → q < x.tile_size_output →
    m.1 (x.resultTile u + q) = x.outputByte acc mem l u q
  latest : ∀ u q, (u + 1) * x.N_TILE_EMBEDDING_SPACE = t → q < x.tile_size_output →
    m.1 (x.output_l1 (parity u) + q) = x.outputByte acc mem l u q
  outside : ∀ p, (∀ r, r.written = true → ¬ x.In r p) → m.1 p = mem p

/-- **Invariant** in front of the job `t`: its tiles have arrived. -/
structure Inv (x : ItaMatMul) (acc : Accelerator L) (mem : Mem) (l : L) (t : Nat)
    (m : Mem × L) : Prop
    extends x.Results acc mem l t m where
  input : ∀ q, q < x.tile_size_input_a → m.1 (x.input_a_l1 (parity t) + q) = mem (x.inputTile t + q)
  weight : ∀ q, q < x.tile_size_input_b →
    m.1 (x.input_b_l1 (parity t) + q) = mem (x.weightTile t + q)
  held : ∀ q, q < x.tile_size_input_b →
    m.1 (x.input_b_l1 (parity (t + 1)) + q) = mem (x.heldTile t + q)
  bias : ∀ q, q < x.tile_size_bias → m.1 (x.bias_l1 + q) = mem (x.bias_l2 + q)

section Step

variable {mem : Mem} {l : L} {t : Nat} {m m₁ : Mem × L}

/-- What lies in memory outside the buffers the program writes. -/
theorem Results.source (h : x.Results acc mem l t m) (hplaced : x.Placed) (hr : r.written = false)
    {p : Nat} (hp : x.In r p) : m.1 p = mem p := by
  apply h.outside p
  intro r' hr'
  apply hplaced.not_in _ hp
  intro heq
  rw [heq, hr'] at hr
  exact Bool.noConfusion hr

/-- What is fetched for the next job is already there. -/
theorem Inv.settled (h : x.Inv acc mem l t m) (hx : x.Shaped) (hplaced : x.Placed)
    (hbias : x.BiasAlike mem (t + 1)) (hnext : acc.IgnoresNext ∨ x.NextAlike mem t) :
    x.Settled acc (t + 1) m := by
  constructor
  · intro q hq
    show m.1 (x.bias_l1 + q) = _
    rw [h.bias q hq, h.source hplaced (r := .biases) rfl ((within_biases hx (t + 1)).add hq),
      hbias q hq]
  · apply hnext.imp_right
    intro halike q hq
    show m.1 (x.input_b_l1 (parity (t + 1)) + q) = _
    rw [h.held q hq, h.source hplaced (r := .inputB) rfl ((within_inputB hx (t + 1)).add hq),
      halike q hq]

/-- What the transfer of the next weights brings. -/
theorem Inv.fetched (h : x.Inv acc mem l t m) (hx : x.Shaped) (hplaced : x.Placed) {q : Nat}
    (hq : q < x.tile_size_input_b) :
    (perform (x.weightCopies (t + 1)) m).1 (x.input_b_l1 (parity (t + 1)) + q) =
      mem (x.weightTile (t + 1) + q) := by
  have happ := hplaced.apart (r := .b (parity (t + 1))) (s := .inputB) (by simp) (within_self _)
    (within_inputB hx (t + 1))
  have hcopy := perform_transfer_inside happ m hq
  rw [← h.source hplaced rfl ((within_inputB hx (t + 1)).add hq)]
  exact hcopy

/-- The job `t` makes the next state if it finds the next weights, as far as
    there are any. -/
theorem Inv.jobState_eq (h : x.Inv acc mem l t m) (hplaced : x.Placed)
    (hbias : x.BiasAlike mem t) (honly : x.Only (.b (parity (t + 1))) m m₁) (hstate : m₁.2 = m.2)
    (hnext : ¬ t + 1 = x.jobs → ∀ q, q < x.tile_size_input_b →
      m₁.1 (x.input_b_l1 (parity (t + 1)) + q) = mem (x.weightTile (t + 1) + q)) :
    x.jobState acc t m₁ = x.stateAt acc mem l (t + 1) := by
  have hne := parity_ne t
  have hinput : tileAt m₁.1 (x.input_a_l1 (parity t)) x.tile_size_input_a =
      tileAt mem (x.inputTile t) x.tile_size_input_a :=
    tileAt_congr fun q hq => (honly.same hplaced (by simp) (in_a hq)).trans
      (h.input q hq)
  have hweight : tileAt m₁.1 (x.input_b_l1 (parity t)) x.tile_size_input_b =
      tileAt mem (x.weightTile t) x.tile_size_input_b :=
    tileAt_congr fun q hq => (honly.same hplaced (by simpa using hne.symm)
      (in_b hq)).trans (h.weight q hq)
  have hb : tileAt m₁.1 x.bias_l1 x.tile_size_bias = tileAt mem (x.biasTile t) x.tile_size_bias :=
    tileAt_congr fun q hq => (honly.same hplaced (by simp) (in_bias hq)).trans
      ((h.bias q hq).trans (hbias q hq).symm)
  have hn : nextAt (x.jobFlags t) m₁.1 (x.input_b_l1 (parity (t + 1))) x.tile_size_input_b =
      nextAt (x.jobFlags t) mem (x.weightTile (t + 1)) x.tile_size_input_b :=
    nextAt_congr fun hflag => hnext ((next_enabled x.toDims t).mp hflag)
  show acc.step _ _ _ _ _ m₁.2 = acc.step _ _ _ _ _ _
  rw [hinput, hweight, hb, hn, hstate, h.state]
  rfl

/-- A change to a buffer that the program writes. -/
theorem outside_only (hr : r.written = true) (honly : x.Only r m m₁)
    (h : ∀ p, (∀ r, r.written = true → ¬ x.In r p) → m.1 p = mem p) :
    ∀ p, (∀ r, r.written = true → ¬ x.In r p) → m₁.1 p = mem p := by
  intro p hp
  rw [honly p (hp r hr)]
  exact h p hp

/-- **The job `t`** adds its results, and the tile before it is written
    back. -/
theorem Inv.tail (h : x.Inv acc mem l t m) (hx : x.Shaped) (hplaced : x.Placed) (habove : x.Above)
    (hbias : x.BiasAlike mem t) (ht : t < x.jobs) (honly : x.Only (.b (parity (t + 1))) m m₁)
    (hstate : m₁.2 = m.2)
    (hnext : ¬ t + 1 = x.jobs → ∀ q, q < x.tile_size_input_b →
      m₁.1 (x.input_b_l1 (parity (t + 1)) + q) = mem (x.weightTile (t + 1) + q)) :
    x.Results acc mem l (t + 1) (perform (x.job acc t :: x.outputCopies t) m₁) := by
  have hjob := h.jobState_eq hplaced hbias honly hstate hnext
  have honly₂ : x.Only (.out (parity (x.tileOf t))) m₁ (x.job acc t m₁) := (job_only habove t m₁).1
  have hstate₂ : (x.job acc t m₁).2 = x.jobState acc t m₁ := (job_only habove t m₁).2
  obtain ⟨honly₃, hstate₃⟩ := perform_only (copies_output ht) (x.job acc t m₁)
  rw [perform_cons]
  refine ⟨?_, ?_, ?_, ?_⟩
  · rw [hstate₃, hstate₂, hjob]
  · intro u q hu hq
    have hlt := tile_lt hx ht.le (Nat.le_of_lt_succ hu)
    by_cases hlatest : (u + 1) * x.N_TILE_EMBEDDING_SPACE = t
    · -- the tile is written back now
      obtain ⟨hk, htile⟩ := first_of_tile hx hlatest
      have hpar : Buffer.out (parity u) ≠ .out (parity (x.tileOf t)) := by
        rw [htile]
        simpa using (parity_ne u).symm
      unfold outputCopies
      rw [if_pos ⟨hk, by omega⟩, htile, Nat.succ_sub_one,
        perform_transfer_inside (result_apart hplaced _ hlt) _ hq,
        honly₂.same hplaced hpar (in_out hq),
        honly.same hplaced (by simp) (in_out hq)]
      exact h.latest u q hlatest hq
    · have hin : x.In .result (x.resultTile u + q) := (within_result hlt).add hq
      have hkeep : (perform (x.outputCopies t) (x.job acc t m₁)).1 (x.resultTile u + q) =
          (x.job acc t m₁).1 (x.resultTile u + q) := by
        unfold outputCopies
        split
        · next hback =>
          obtain ⟨v, hv⟩ := Nat.exists_eq_succ_of_ne_zero hback.2
          have hne : u ≠ v := by
            intro heq
            have hindex := job_index x.toDims t
            rw [hv, hback.1, ← heq] at hindex
            exact hlatest hindex
          have hvlt := tileOf_lt ht
          rw [hv, Nat.succ_sub_one]
          exact perform_transfer_outside (result_apart hplaced _ (by omega)) _ (tile_outside hne hq)
        · rfl
      rw [hkeep, honly₂.same hplaced (by simp) hin, honly.same hplaced (by simp) hin]
      exact h.finished u q (by omega) hq
  · intro u q hu hq
    obtain ⟨htile, hk⟩ := last_of_tile hx hu
    have hflag : ¬ (x.jobFlags t).testBit 4 = true := by
      rw [(output_enabled x.toDims t).mpr hk]
      exact Bool.false_ne_true
    rw [honly₃.same hplaced (by simp) (in_out hq), job_eq habove, htile]
    dsimp only
    rw [if_neg hflag, if_pos (by omega), Nat.add_sub_cancel_left, hjob, outputByte, hu]
  · exact outside_only rfl honly₃ (outside_only rfl honly₂ (outside_only rfl honly h.outside))

/-- **The transfers for the job `t`** bring its tiles. -/
theorem Results.head (h : x.Results acc mem l t m) (hx : x.Shaped) (hplaced : x.Placed)
    (hsame : x.BiasAlike mem t) (ht : t < x.jobs)
    (hweight : ∀ q, q < x.tile_size_input_b →
      m.1 (x.input_b_l1 (parity t) + q) = mem (x.weightTile t + q))
    (hheld : ∀ q, q < x.tile_size_input_b →
      m.1 (x.input_b_l1 (parity (t + 1)) + q) = mem (x.heldTile t + q))
    (hbias : x.kOf t ≠ 0 → ∀ q, q < x.tile_size_bias → m.1 (x.bias_l1 + q) = mem (x.bias_l2 + q)) :
    x.Inv acc mem l t (perform (x.biasCopies t ++ x.inputCopies t) m) := by
  obtain ⟨honly, hstate⟩ := perform_only (fun f hf => (copies_bias hx f hf).1) m
  obtain ⟨honly', hstate'⟩ := perform_only (copies_input hx ht) (perform (x.biasCopies t) m)
  rw [perform_append]
  -- what is in neither of the two buffers stays
  have hkeep : ∀ s p, s ≠ .bias → s ≠ .a (parity t) → x.In s p →
      (perform (x.inputCopies t) (perform (x.biasCopies t) m)).1 p = m.1 p := by
    intro s p hs hs' hp
    rw [honly'.same hplaced hs' hp, honly.same hplaced hs hp]
  refine ⟨⟨?_, ?_, ?_, ?_⟩, ?_, ?_, ?_, ?_⟩
  · rw [hstate', hstate, h.state]
  · intro u q hu hq
    have hin : x.In .result (x.resultTile u + q) := (within_result (tile_lt hx ht.le hu.le)).add hq
    rw [hkeep .result _ (by simp) (by simp) hin]
    exact h.finished u q hu hq
  · intro u q hu hq
    rw [hkeep (.out (parity u)) _ (by simp) (by simp) (in_out hq)]
    exact h.latest u q hu hq
  · exact outside_only rfl honly' (outside_only rfl honly h.outside)
  · intro q hq
    have hin : x.In .inputA (x.inputTile t + q) := (within_inputA hx ht).add hq
    have happ := hplaced.apart (r := .a (parity t)) (s := .inputA) (by simp) (within_self _)
      (within_inputA hx ht)
    have hcopy := perform_transfer_inside happ (perform (x.biasCopies t) m) hq
    unfold inputCopies
    rw [← h.source hplaced rfl hin, ← honly.same hplaced (by simp) hin]
    exact hcopy
  · intro q hq
    rw [hkeep (.b (parity t)) _ (by simp) (by simp) (in_b hq)]
    exact hweight q hq
  · intro q hq
    rw [hkeep (.b (parity (t + 1))) _ (by simp) (by simp) (in_b hq)]
    exact hheld q hq
  · intro q hq
    rw [honly'.same hplaced (by simp) (in_bias hq)]
    by_cases hk : x.kOf t = 0
    · have happ := hplaced.apart (r := .bias) (s := .biases) (by simp) (within_self _)
        (within_biases hx t)
      have hin : x.In .biases (x.biasTile t + q) := (within_biases hx t).add hq
      have hcopy := perform_transfer_inside happ m hq
      unfold biasCopies
      rw [if_pos hk, ← hsame q hq, ← h.source hplaced rfl hin]
      exact hcopy
    · unfold biasCopies
      rw [if_neg hk]
      exact hbias hk q hq

end Step

/-! ## Section 8: Runs -/

/-- The program with what its caller does after it. -/
def matmul [Runtime] (x : ItaMatMul) (acc : Accelerator L) (regs : Regs) : List (Op L) :=
  (x.ita_compute_matmul_L2 acc regs).ops ++ x.writeLast

/-- The code up to the first trigger, -/
def start (x : ItaMatMul) : List (Op L) :=
  snrt_dma_start_1d (x.input_b_l1 false) x.input_b_l2 x.tile_size_input_b :: x.headOps 0

/-- from the trigger of the job `t` to the next one, -/
def middle (x : ItaMatMul) (acc : Accelerator L) (t : Nat) : List (Op L) :=
  x.tailOps acc t ++ x.headOps (t + 1)

/-- and from the last trigger on. -/
def finish (x : ItaMatMul) (acc : Accelerator L) (t : Nat) : List (Op L) :=
  x.tailOps acc t ++ x.writeLast

theorem shift_heads {α : Type} (first : List α) (head tail : Nat → List α) (n : Nat) :
    first ++ (List.range (n + 1)).flatMap (fun t => head t ++ tail t) =
      first ++ head 0 ++ (List.range n).flatMap (fun t => tail t ++ head (t + 1)) ++ tail n := by
  induction n with
  | zero => simp
  | succ n ih =>
    rw [List.range_succ, List.flatMap_append, List.flatMap_singleton, ← List.append_assoc, ih,
      List.range_succ, List.flatMap_append, List.flatMap_singleton]
    simp only [List.append_assoc]

theorem matmul_eq (hx : x.Shaped) (habove : x.Above) (regs : Regs) {n : Nat} (hn : n + 1 = x.jobs) :
    x.matmul acc regs =
      x.start ++ ((List.range n).flatMap (x.middle acc) ++ x.finish acc n) := by
  obtain ⟨regs', hops⟩ : ∃ regs', _ = Gen.mk (L := L) (_ :: (List.range x.jobs).flatMap
      fun t => x.headOps t ++ x.tailOps acc t) (parity x.jobs) regs' := ops_eq hx habove regs le_rfl
  have hshift := shift_heads
    [snrt_dma_start_1d (x.input_b_l1 false) x.input_b_l2 x.tile_size_input_b] x.headOps
    (x.tailOps acc) n
  rw [List.singleton_append, List.singleton_append] at hshift
  unfold matmul finish
  rw [loop_eq hx, hops, ← hn]
  show _ :: _ ++ _ = _
  rw [hshift]
  unfold start middle
  simp only [List.append_assoc]

/-! ### What is waited for -/

theorem left_waits {k : Fin 1} (ctx : List (Task 1 (Mem × L) Engine)) :
    left k ctx [snrt_dma_wait_all, ita_wait_job] = [] := by
  show (ctx.filter (fun t => t.engine ≠ .dma)).filter (fun t => t.engine ≠ .ita) = []
  apply List.filter_eq_nil_iff.mpr
  intro t ht
  have hdma := of_decide_eq_true (List.mem_filter.mp ht).2
  match he : t.engine with
  | .dma => exact absurd he hdma
  | .ita => simp

theorem left_headOps (x : ItaMatMul) (k : Fin 1) (t : Nat) (ctx : List (Task 1 (Mem × L) Engine)) :
    ∃ ctx', left k ctx (x.headOps t) =
      left k ctx' (snrt_dma_wait_all :: if t = 0 then [] else [ita_wait_job]) ∧
      (InFlight ctx → InFlight ctx') := by
  unfold headOps
  by_cases hk : x.kOf t = 0
  · rw [if_pos hk]
    exact ⟨_, rfl, fun h => h.started.started⟩
  · rw [if_neg hk]
    exact ⟨_, rfl, fun h => h.started⟩

theorem start_drained : Drained (fun _ : Fin 1 => (x.start : List (Op L))) := by
  intro k
  have hnone : InFlight ([] : List (Task 1 (Mem × L) Engine)) :=
    fun _ ht => absurd ht List.not_mem_nil
  show left k (started k [] _ _ _) (x.headOps 0) = []
  obtain ⟨ctx, heq, hctx⟩ := left_headOps x k 0
    (started k [] (x.input_b_l1 false) x.input_b_l2 x.tile_size_input_b)
  rw [heq, left_wait (hctx hnone.started)]
  rfl

theorem middle_drained (t : Nat) : Drained (fun _ : Fin 1 => x.middle acc t) := by
  intro k
  obtain ⟨ctx, heq, _⟩ := left_headOps x k (t + 1) (left k [] (x.tailOps acc t))
  unfold middle
  rw [left_append, heq, if_neg (Nat.succ_ne_zero t), left_waits]

theorem headOps_free (t : Nat) : ∀ op ∈ (x.headOps t : List (Op L)), op.isBarrier = false := by
  intro op hop
  unfold headOps at hop
  simp only [List.mem_append, List.mem_cons, List.not_mem_nil, or_false] at hop
  obtain hop | (rfl | rfl) | hop := hop
  · split at hop
    · obtain rfl := List.mem_singleton.mp hop
      rfl
    · cases hop
  · rfl
  · rfl
  · split at hop
    · cases hop
    · obtain rfl := List.mem_singleton.mp hop
      rfl

theorem tailOps_free (t : Nat) : ∀ op ∈ x.tailOps acc t, op.isBarrier = false := by
  intro op hop
  unfold tailOps at hop
  simp only [List.mem_append, List.mem_cons] at hop
  obtain hop | rfl | hop := hop
  · split at hop
    · cases hop
    · obtain rfl := List.mem_singleton.mp hop
      rfl
  · rfl
  · split at hop
    · obtain rfl := List.mem_singleton.mp hop
      rfl
    · cases hop

theorem writeLast_free : ∀ op ∈ (x.writeLast : List (Op L)), op.isBarrier = false := by
  intro op hop
  unfold writeLast at hop
  simp only [List.mem_cons, List.not_mem_nil, or_false] at hop
  obtain rfl | rfl | rfl := hop <;> rfl

/-! ### The stretches -/

section Runs

variable {mem : Mem} {l : L} {t n : Nat} {m m' : Mem × L}

/-- The tiles of the first job arrive. -/
theorem start_ends (hx : x.Shaped) (hplaced : x.Placed)
    (hjobs : 0 < x.jobs) (h : Ends (fun _ : Fin 1 => x.start) (mem, l) m) :
    x.Inv acc mem l 0 m := by
  have hzero : x.input_b_l2 = x.weightTile 0 := by
    unfold weightTile jOf kOf tileOf
    rw [Nat.zero_div, Nat.zero_mod, Nat.zero_mod, Nat.zero_mul, Nat.zero_add, Nat.zero_mul,
      Nat.add_zero]
  have hwork : work (x.start : List (Op L)) =
      x.weightCopies 0 ++ (x.biasCopies 0 ++ x.inputCopies 0) := by
    unfold start
    rw [work_cons, work_headOps, hzero]
    rfl
  have hcomm : Commuting (fun _ => True) (fun _ : Fin 1 => (x.start : List (Op L))) := by
    apply commuting_of_pairwise
    · intro op hop
      obtain rfl | hop := List.mem_cons.mp hop
      · rfl
      · exact headOps_free 0 op hop
    · exact fun _ _ _ _ => trivial
    · rw [hwork]
      apply List.pairwise_append.mpr
      refine ⟨weight_pairwise hx hplaced, head_pairwise hx hplaced hjobs, ?_⟩
      intro f hf g hg
      have hf' := copies_weight hx f hf
      obtain hg | hg := List.mem_append.mp hg
      · exact hf'.comm hplaced (copies_bias hx g hg).1 (by simp) (by simp) (by simp)
      · exact hf'.comm hplaced (copies_input hx hjobs g hg) (by simp) (by simp) (by simp)
  have hend := hcomm.ends trivial h
  rw [inTurn_one, hwork, perform_append] at hend
  rw [hend]
  obtain ⟨honly, hstate⟩ := perform_only (copies_weight hx (t := 0)) (mem, l)
  have hresults : x.Results acc mem l 0 (perform (x.weightCopies 0) (mem, l)) := by
    refine ⟨hstate, ?_, ?_, outside_only rfl honly fun _ _ => rfl⟩
    · intro u q hu
      exact absurd hu (Nat.not_lt_zero _)
    · intro u q hu
      exact absurd hu (Nat.mul_pos (Nat.succ_pos u) hx.E).ne'
  apply hresults.head hx hplaced (biasAlike_zero x mem) hjobs
  · intro q hq
    exact perform_transfer_inside (hplaced.apart (r := .b (parity 0)) (s := .inputB) (by simp)
      (within_self _) (within_inputB hx 0)) (mem, l) hq
  · intro q hq
    exact honly.same hplaced (s := .b true) (by simp [parity]) (in_b hq)
  · intro hk
    exact absurd (Nat.zero_mod _) hk

/-- **A stretch between two triggers**: whatever the order in which the
    accelerator and the transfers do their work, the next job finds its
    tiles. -/
theorem middle_ends (hx : x.Shaped) (habove : x.Above) (hplaced : x.Placed)
    (hbias : x.BiasAlike mem t) (hbias' : x.BiasAlike mem (t + 1))
    (hnext : acc.IgnoresNext ∨ x.NextAlike mem t) (ht : t + 1 < x.jobs) (hinv : x.Inv acc mem l t m)
    (h : Ends (fun _ : Fin 1 => x.middle acc t) m m') : x.Inv acc mem l (t + 1) m' := by
  have hlast : ¬ t + 1 = x.jobs := ht.ne
  have hwork : work (x.middle acc t) =
      (x.weightCopies (t + 1) ++ x.job acc t :: x.outputCopies t) ++
        (x.biasCopies (t + 1) ++ x.inputCopies (t + 1)) := by
    unfold middle
    rw [work_append, work_tailOps, work_headOps, if_neg hlast]
  have hcomm : Commuting (x.Settled acc (t + 1)) (fun _ : Fin 1 => x.middle acc t) := by
    apply commuting_of_pairwise
    · intro op hop
      obtain hop | hop := List.mem_append.mp hop
      · exact tailOps_free t op hop
      · exact headOps_free (t + 1) op hop
    · rw [hwork]
      exact middle_keeps hx hplaced habove ht
    · rw [hwork]
      exact middle_pairwise hx hplaced habove ht
  have hend := hcomm.ends (hinv.settled hx hplaced hbias' hnext) h
  rw [inTurn_one, hwork, perform_append (x.weightCopies (t + 1) ++ x.job acc t :: x.outputCopies t),
    perform_append (x.weightCopies (t + 1))] at hend
  rw [hend]
  obtain ⟨honly, hstate⟩ := perform_only (copies_weight hx (t := t + 1)) m
  have hresults := hinv.tail hx hplaced habove hbias (by omega) honly hstate
    fun _ q hq => hinv.fetched hx hplaced hq
  -- what the job and the tile before it leave alone
  have hkeep : ∀ s p, (∀ b, s ≠ .out b) → s ≠ .result → x.In s p →
      (perform (x.job acc t :: x.outputCopies t) (perform (x.weightCopies (t + 1)) m)).1 p =
        (perform (x.weightCopies (t + 1)) m).1 p := by
    intro s p hs hs' hp
    rw [perform_cons, (perform_only (copies_output (by omega)) _).1.same hplaced hs' hp,
      (job_only habove t _).1.same hplaced (hs _) hp]
  apply hresults.head hx hplaced hbias' ht
  · intro q hq
    rw [hkeep (.b (parity (t + 1))) _ (by simp) (by simp) (in_b hq)]
    exact hinv.fetched hx hplaced hq
  · intro q hq
    have hsame : parity (t + 1 + 1) = parity t := by
      rw [parity_succ, parity_succ, Bool.not_not]
    rw [hsame, hkeep (.b (parity t)) _ (by simp) (by simp) (in_b hq),
      honly.same hplaced (by simpa using (parity_ne t).symm) (in_b hq)]
    exact hinv.weight q hq
  · intro _ q hq
    rw [hkeep .bias _ (by simp) (by simp) (in_bias hq), honly.same hplaced (by simp) (in_bias hq)]
    exact hinv.bias q hq

theorem middles_ends (hx : x.Shaped) (habove : x.Above) (hplaced : x.Placed)
    (hbias : ∀ t, t ≤ n → x.BiasAlike mem t)
    (hnext : ∀ t, t < n → acc.IgnoresNext ∨ x.NextAlike mem t) (hn : n < x.jobs)
    (hinv : x.Inv acc mem l 0 m)
    (h : Ends (fun _ : Fin 1 => (List.range n).flatMap (x.middle acc)) m m') :
    x.Inv acc mem l n m' := by
  induction n generalizing m' with
  | zero =>
    rw [h.idle fun _ => rfl]
    exact hinv
  | succ n ih =>
    rw [List.range_succ, List.flatMap_append, List.flatMap_singleton] at h
    obtain ⟨m₁, hfirst, hlast⟩ := Ends.split_append
      (fun k => left_flatMap fun t _ => middle_drained t k) h
    have hinv₁ := ih (fun t ht => hbias t (by omega)) (fun t ht => hnext t (by omega)) (by omega)
      hfirst
    exact middle_ends hx habove hplaced (hbias n (by omega)) (hbias (n + 1) le_rfl)
      (hnext n (Nat.lt_succ_self n)) hn hinv₁ hlast

/-- What a run leaves: the tiles of the output, as if the jobs had been done
    one after the other, and nothing else outside the buffers. -/
structure Delivered (x : ItaMatMul) (acc : Accelerator L) (mem : Mem) (l : L)
    (m : Mem × L) : Prop where
  tiles : ∀ u q, u < x.N_TILE_SEQUENCE_LENGTH * x.N_TILE_PROJECTION_SPACE → q < x.tile_size_output →
    m.1 (x.resultTile u + q) = x.outputByte acc mem l u q
  outside : ∀ p, (∀ r, r.written = true → ¬ x.In r p) → m.1 p = mem p

/-- The last tile of the output. -/
def lastTile (x : ItaMatMul) : Nat := x.N_TILE_SEQUENCE_LENGTH * x.N_TILE_PROJECTION_SPACE - 1

theorem lastTile_succ (hx : x.Shaped) :
    x.lastTile + 1 = x.N_TILE_SEQUENCE_LENGTH * x.N_TILE_PROJECTION_SPACE :=
  Nat.sub_add_cancel (Nat.mul_pos hx.S hx.P)

theorem writeLast_eq (hx : x.Shaped) : (x.writeLast : List (Op L)) =
    [ita_wait_job, x.startOutput x.lastTile, snrt_dma_wait_all] := by
  have hindex : (x.N_TILE_SEQUENCE_LENGTH - 1) * x.N_TILE_PROJECTION_SPACE +
      (x.N_TILE_PROJECTION_SPACE - 1) = x.lastTile := by
    obtain ⟨s, hs⟩ := Nat.exists_eq_succ_of_ne_zero hx.S.ne'
    have hP := hx.P
    unfold lastTile
    rw [hs, Nat.succ_sub_one, Nat.succ_mul]
    omega
  unfold writeLast startOutput resultTile
  dsimp only
  rw [hindex]
  rfl

/-- What may be under way when the last job is done. -/
theorem left_tailOps {k : Fin 1} (hn : n + 1 = x.jobs) :
    ∀ t ∈ left k [] (x.tailOps acc n ++ [ita_wait_job]),
      t.engine = .dma ∧ t.run ∈ x.outputCopies n := by
  have hfilter : ∀ fs : List (Mem × L → Mem × L),
      ∀ t : Task 1 (Mem × L) Engine, t ∈ ((⟨k, .ita, x.job acc n⟩ : Task 1 (Mem × L) Engine) ::
        fs.map fun f => ⟨k, .dma, f⟩).filter (fun t => t.engine ≠ .ita) →
        t.engine = .dma ∧ t.run ∈ fs := by
    intro fs t ht
    obtain ⟨ht, hne⟩ := List.mem_filter.mp ht
    obtain rfl | ht := List.mem_cons.mp ht
    · exact absurd rfl (of_decide_eq_true hne)
    · obtain ⟨f, hf, rfl⟩ := List.mem_map.mp ht
      exact ⟨rfl, hf⟩
  unfold tailOps outputCopies
  rw [if_pos hn]
  split
  · exact hfilter _
  · exact hfilter []

theorem finish_commuting (hx : x.Shaped) (habove : x.Above) (hplaced : x.Placed)
    (hn : n + 1 = x.jobs) : Commuting (fun _ => True) (fun _ : Fin 1 => x.finish acc n) := by
  have hlt : n < x.jobs := by omega
  have hlast := lastTile_succ hx
  obtain ⟨htile, _⟩ := last_of_tile hx (u := x.lastTile) (t := n) (by rw [hlast, hn]; rfl)
  refine ⟨?_, fun _ _ _ _ _ => trivial, ?_, fun k k' hne => absurd (Subsingleton.elim k k') hne⟩
  · intro _ op hop
    obtain hop | hop := List.mem_append.mp hop
    · exact tailOps_free n op hop
    · exact writeLast_free op hop
  · intro k
    have hsplit : x.finish acc n =
        (x.tailOps acc n ++ [ita_wait_job]) ++ [x.startOutput x.lastTile, snrt_dma_wait_all] := by
      unfold finish
      rw [writeLast_eq hx, List.append_assoc]
      rfl
    rw [hsplit]
    apply Ordered.append
    · apply ordered_of_pairwise
      rw [work_append, work_tailOps, if_pos hn, List.map_nil, List.nil_append, List.nil_append]
      show (x.job acc n :: x.outputCopies n ++ []).Pairwise _
      rw [List.append_nil]
      exact job_output_pairwise hplaced habove hlt
    · -- the tile before the last one may still be on its way
      refine ⟨transfer_pairwise (result_apart hplaced _ (by omega)), ?_, trivial⟩
      intro f hf t ht
      obtain ⟨_, hrun⟩ := left_tailOps hn t ht
      unfold outputCopies at hrun
      split at hrun
      · next hback =>
        rw [htile] at hback hrun
        have hdst : Apart (x.resultTile x.lastTile) x.tile_size_output
            (x.resultTile (x.lastTile - 1)) x.tile_size_output := by
          obtain ⟨v, hv⟩ := Nat.exists_eq_succ_of_ne_zero hback.2
          right
          unfold resultTile
          rw [hv, Nat.succ_sub_one, Nat.succ_mul]
          omega
        exact transfer_comm hdst (result_apart hplaced _ (by omega)).symm
          (result_apart hplaced _ (by omega)).symm f hf t.run hrun
      · cases hrun

/-- What is done from the last trigger on, in order. -/
theorem finish_perform (hx : x.Shaped) (habove : x.Above) (hplaced : x.Placed) (hn : n + 1 = x.jobs)
    (h : Ends (fun _ : Fin 1 => x.finish acc n) m m') :
    m' = perform (transfer (x.resultTile x.lastTile) (x.output_l1 (parity x.lastTile))
      x.tile_size_output) (perform (x.job acc n :: x.outputCopies n) m) := by
  have hwork : work (x.finish acc n) = (x.job acc n :: x.outputCopies n) ++
      transfer (x.resultTile x.lastTile) (x.output_l1 (parity x.lastTile)) x.tile_size_output := by
    unfold finish
    rw [work_append, work_tailOps, if_pos hn, List.nil_append, writeLast_eq hx]
    show _ ++ (_ ++ []) = _
    rw [List.append_nil]
    rfl
  have hend := (finish_commuting hx habove hplaced hn).ends trivial h
  rwa [inTurn_one, hwork, perform_append (x.job acc n :: x.outputCopies n)] at hend

/-- The last tiles of the output are written back. -/
theorem finish_ends (hx : x.Shaped) (habove : x.Above) (hplaced : x.Placed)
    (hbias : x.BiasAlike mem n) (hn : n + 1 = x.jobs) (hinv : x.Inv acc mem l n m)
    (h : Ends (fun _ : Fin 1 => x.finish acc n) m m') : x.Delivered acc mem l m' := by
  have hlt : n < x.jobs := by omega
  have hlast := lastTile_succ hx
  have hend := finish_perform hx habove hplaced hn h
  have hresults := hinv.tail hx hplaced habove hbias hlt (fun _ _ => rfl) rfl
    fun hnot => absurd hn hnot
  rw [hend]
  have happ : Apart (x.resultTile x.lastTile) x.tile_size_output
      (x.output_l1 (parity x.lastTile)) x.tile_size_output := result_apart hplaced _ (by omega)
  constructor
  · intro u q hu hq
    have hle : (u + 1) * x.N_TILE_EMBEDDING_SPACE ≤ x.jobs := Nat.mul_le_mul_right _ hu
    by_cases heq : u = x.lastTile
    · have hjobs : (u + 1) * x.N_TILE_EMBEDDING_SPACE = n + 1 := by
        rw [heq, hlast, hn]
        rfl
      rw [← heq] at happ ⊢
      rw [perform_transfer_inside happ _ hq]
      exact hresults.latest u q hjobs hq
    · have hother := perform_transfer_outside happ (perform (x.job acc n :: x.outputCopies n) m)
        (tile_outside heq hq)
      have hmul : (u + 1) * x.N_TILE_EMBEDDING_SPACE < x.jobs :=
        Nat.mul_lt_mul_of_pos_right (by omega) hx.E
      exact hother.trans (hresults.finished u q (by omega) hq)
  · intro p hp
    have hout : ¬ x.In .result p := hp .result rfl
    have hin := within_result (x := x) (u := x.lastTile) (by omega)
    unfold In at hout
    unfold Within at hin
    rw [perform_transfer_outside happ _ (by omega)]
    exact hresults.outside p hp

end Runs

theorem matmul_ends (hx : x.Shaped) (habove : x.Above) (hplaced : x.Placed) {regs : Regs}
    {mem : Mem} {l : L} {m : Mem × L} (hbias : x.SameBias mem)
    (hnext : acc.IgnoresNext ∨ x.SameNext mem)
    (hend : Ends (fun _ : Fin 1 => x.matmul acc regs) (mem, l) m) : x.Delivered acc mem l m := by
  have hjobs : 0 < x.jobs := Nat.mul_pos (Nat.mul_pos hx.S hx.P) hx.E
  obtain ⟨n, hn⟩ := Nat.exists_eq_succ_of_ne_zero hjobs.ne'
  rw [matmul_eq hx habove regs hn.symm] at hend
  obtain ⟨m₀, hstart, hend⟩ := Ends.split_append start_drained hend
  obtain ⟨m₁, hmiddle, hfinish⟩ := Ends.split_append
    (fun k => left_flatMap fun t _ => middle_drained t k) hend
  have hinv₀ : x.Inv acc mem l 0 m₀ := start_ends hx hplaced hjobs hstart
  have hinv := middles_ends hx habove hplaced (fun t _ => hbias.alike hx t)
    (fun t ht => hnext.imp_right fun h => h t (by omega)) (by omega) hinv₀ hmiddle
  exact finish_ends hx habove hplaced (hbias.alike hx n) hn.symm hinv hfinish

/-- Every run ends, and delivers the product. -/
structure Works [Runtime] (x : ItaMatMul) (acc : Accelerator L) (regs : Regs) (mem : Mem)
    (l : L) : Prop where
  terminates : system.Terminates (initial (fun _ : Fin 1 => x.matmul acc regs) (mem, l))
  finished : ∀ s, Reaches (fun _ : Fin 1 => x.matmul acc regs) (mem, l) s → system.Stuck s →
    Finished s
  delivers : ∀ m, Ends (fun _ : Fin 1 => x.matmul acc regs) (mem, l) m → x.Delivered acc mem l m

/-- **The product**: whatever the order of the transfers and of the work of
    the accelerator, the program ends, and it leaves the tiles that the jobs
    make one after the other from the matrices, as long as no transfer
    changes what a job depends on. -/
theorem matmul_works (hx : x.Shaped) (habove : x.Above) (hplaced : x.Placed) (regs : Regs)
    (acc : Accelerator L) {mem : Mem} (hbias : x.SameBias mem)
    (hnext : acc.IgnoresNext ∨ x.SameNext mem) (l : L) : x.Works acc regs mem l := by
  obtain ⟨hterm, hfin⟩ := runs_end Nat.one_pos (balanced_one (x.matmul acc regs)) (mem, l)
  exact ⟨hterm, hfin, fun m hend => matmul_ends hx habove hplaced hbias hnext hend⟩

/-- A row of two tiles, each of two rows and two columns. -/
def twoColumns : ItaMatMul where
  N_TILE_SEQUENCE_LENGTH := 1
  N_TILE_EMBEDDING_SPACE := 1
  N_TILE_PROJECTION_SPACE := 2
  TILE_SIZE_SEQUENCE_LENGTH := 2
  TILE_SIZE_EMBEDDING_SPACE := 2
  TILE_SIZE_PROJECTION_SPACE := 2
  CLUSTER_4_BASE := 0
  input_a_l2 := 256
  input_b_l2 := 272
  bias_l2 := 288
  output_l2 := 304
  input_a_l1 := fun b => 16 + 16 * b.toNat
  input_b_l1 := fun b => 48 + 16 * b.toNat
  bias_l1 := 80
  output_l1 := fun b => 96 + 16 * b.toNat

end ItaMatMul

end Snrt
