import ChimeraSdk.Device.ItaBias

/-! # A Matrix Product within the Cluster

    `ita_compute_matmul_L1` works on matrices that lie in the memory of the
    cluster already.  Its jobs run one after the other, so they leave what
    the program with the transfers leaves when that one works.  Each job also
    names weights for the job after it, and here the two programs differ. -/

open Cluster ByteMemory CInt

namespace Snrt

/-! ## Section 1: The program -/

/-- The arguments of `ita_compute_matmul_L1`. -/
structure ItaMatMulL1 extends Dims where
  input_a_l1 : Nat
  input_b_l1 : Nat
  bias_l1 : Nat
  output_l1 : Nat

namespace ItaMatMulL1

open Dims

variable {L : Type} (x : ItaMatMulL1) (acc : Accelerator L)

/-- The registers of the tile, from those before. -/
def setRegs (i j k : Nat) (regs : Regs) : Regs :=
  let offset_bias := j * x.TILE_SIZE_PROJECTION_SPACE
  let is_first_tile := i = 0 ∧ j = 0 ∧ k = 0
  let is_last_tile := i = x.N_TILE_SEQUENCE_LENGTH - 1 ∧ j = x.N_TILE_PROJECTION_SPACE - 1 ∧
    k = x.N_TILE_EMBEDDING_SPACE - 1
  let offset_input_a := (i * x.N_TILE_EMBEDDING_SPACE + k) * x.tile_size_input_a
  let offset_input_b := (j * x.N_TILE_EMBEDDING_SPACE + k) * x.tile_size_input_b
  let offest_input_b_next :=
    (j * x.N_TILE_EMBEDDING_SPACE + (k + 1) % x.N_TILE_EMBEDDING_SPACE) * x.tile_size_input_b
  let offset_output := (i * x.N_TILE_PROJECTION_SPACE + j) * x.tile_size_output
  ita_set_flags (ITA_FLAGS (if is_first_tile then 1 else 0) (if is_last_tile then 0 else 1) 0 0
      (if k = x.N_TILE_EMBEDDING_SPACE - 1 then 0 else 1))
    (ita_set_addresses x.CLUSTER_4_BASE (x.input_a_l1 + offset_input_a)
      (x.input_b_l1 + offset_input_b) (x.input_b_l1 + offest_input_b_next)
      (x.bias_l1 + 3 * offset_bias) (x.output_l1 + offset_output) regs)

/-- A round of the innermost loop, with what has been done so far and the
    registers. -/
def body [Runtime] (i j k : Nat) (g : List (Op L) × Regs) : List (Op L) × Regs :=
  let is_first_tile := i = 0 ∧ j = 0 ∧ k = 0
  let regs := x.setRegs i j k g.2
  (g.1 ++ ([snrt_dma_wait_all] ++ ((if is_first_tile then [] else [ita_wait_job]) ++
    [ita_trigger (acc.job x.CLUSTER_4_BASE x.sizes regs)])), regs)

/-- `ita_compute_matmul_L1`, on registers that may hold anything. -/
def ita_compute_matmul_L1 [Runtime] (regs : Regs) : List (Op L) × Regs :=
  (List.range x.N_TILE_SEQUENCE_LENGTH).foldl (fun g i =>
    (List.range x.N_TILE_PROJECTION_SPACE).foldl (fun g j =>
      (List.range x.N_TILE_EMBEDDING_SPACE).foldl (fun g k => x.body acc i j k g) g) g) ([], regs)

/-- The program, and its caller that waits for the last job. -/
def matmul [Runtime] (regs : Regs) : List (Op L) :=
  (x.ita_compute_matmul_L1 acc regs).1 ++ [ita_wait_job]

/-! ## Section 2: Job after job -/

/-- Where the tiles lie that the job `t` names, and the tile `u` of the
    output. -/
def inputTile (t : Nat) : Nat :=
  x.input_a_l1 + (x.iOf t * x.N_TILE_EMBEDDING_SPACE + x.kOf t) * x.tile_size_input_a

def weightTile (t : Nat) : Nat :=
  x.input_b_l1 + (x.jOf t * x.N_TILE_EMBEDDING_SPACE + x.kOf t) * x.tile_size_input_b

def nextTile (t : Nat) : Nat :=
  x.input_b_l1 + (x.jOf t * x.N_TILE_EMBEDDING_SPACE + (x.kOf t + 1) % x.N_TILE_EMBEDDING_SPACE) *
    x.tile_size_input_b

def biasTile (t : Nat) : Nat := x.bias_l1 + 3 * (x.jOf t * x.TILE_SIZE_PROJECTION_SPACE)

def resultTile (u : Nat) : Nat := x.output_l1 + u * x.tile_size_output

/-- The registers of the job `t`. -/
def jobRegs (t : Nat) : Regs where
  input := x.inputTile t - x.CLUSTER_4_BASE
  weight := x.weightTile t - x.CLUSTER_4_BASE
  weight_next := x.nextTile t - x.CLUSTER_4_BASE
  bias := x.biasTile t - x.CLUSTER_4_BASE
  output := x.resultTile (x.tileOf t) - x.CLUSTER_4_BASE
  flags := x.jobFlags t

def job (t : Nat) : Mem × L → Mem × L := acc.job x.CLUSTER_4_BASE x.sizes (x.jobRegs t)

/-- What is done for the job `t`. -/
def jobOps (t : Nat) : List (Op L) :=
  [snrt_dma_wait_all] ++ ((if t = 0 then [] else [ita_wait_job]) ++ [ita_trigger (x.job acc t)])

/-- All matrices lie behind the base of the cluster. -/
structure Above (x : ItaMatMulL1) : Prop where
  input_a : x.CLUSTER_4_BASE < x.input_a_l1
  input_b : x.CLUSTER_4_BASE < x.input_b_l1
  bias : x.CLUSTER_4_BASE < x.bias_l1
  output : x.CLUSTER_4_BASE < x.output_l1

variable {x acc}

/-- The three loops as one loop over the jobs. -/
theorem loop_eq (x : ItaMatMulL1) (acc : Accelerator L) (regs : Regs) :
    x.ita_compute_matmul_L1 acc regs = (List.range x.jobs).foldl
      (fun g t => x.body acc (x.iOf t) (x.jOf t) (x.kOf t) g) ([], regs) := by
  unfold ita_compute_matmul_L1 jobs
  rw [foldl_nested (fun i j g => (List.range x.N_TILE_EMBEDDING_SPACE).foldl
      (fun g k => x.body acc i j k g) g),
    foldl_nested (fun u k g => x.body acc (u / x.N_TILE_PROJECTION_SPACE)
      (u % x.N_TILE_PROJECTION_SPACE) k g)]
  rfl

/-- With all matrices behind the base, the registers are the new ones. -/
theorem setRegs_eq (hx : x.Shaped) (habove : x.Above) {t : Nat} (ht : t < x.jobs) (regs : Regs) :
    x.setRegs (x.iOf t) (x.jOf t) (x.kOf t) regs = x.jobRegs t := by
  have hfirst := first_iff x.toDims t
  have hlast := last_iff hx ht
  have ha := habove.input_a
  have hb := habove.input_b
  have hbias := habove.bias
  have hout := habove.output
  have hle : ∀ {p q : Nat}, x.CLUSTER_4_BASE < p → p + q > x.CLUSTER_4_BASE :=
    fun h => Nat.lt_add_right _ h
  unfold setRegs ita_set_addresses jobRegs
  dsimp only
  rw [if_pos (hle ha), if_pos (hle hb), if_pos (hle hb), if_pos (hle hbias), if_pos (hle hout),
    tile_index]
  simp only [hfirst, hlast]
  rfl

/-- The program, job after job. -/
theorem ops_eq (hx : x.Shaped) (habove : x.Above) (regs : Regs) {n : Nat} (hn : n ≤ x.jobs) :
    ((List.range n).foldl (fun g t => x.body acc (x.iOf t) (x.jOf t) (x.kOf t) g) ([], regs)).1 =
      (List.range n).flatMap (x.jobOps acc) := by
  induction n with
  | zero => rfl
  | succ n ih =>
    have hfirst := first_iff x.toDims n
    have hregs := setRegs_eq hx habove (show n < x.jobs from hn)
    rw [List.range_succ, List.foldl_append, List.flatMap_append, List.flatMap_singleton,
      ← ih (by omega)]
    show _ ++ _ = _ ++ _
    simp only [hregs, hfirst]
    rfl

/-! ## Section 3: Runs -/

/-- The job that may be under way. -/
def underWay (x : ItaMatMulL1) (acc : Accelerator L) (k : Fin 1) (n : Nat) :
    List (Task 1 (Mem × L) Engine) :=
  if n = 0 then [] else [⟨k, .ita, x.job acc (n - 1)⟩]

theorem jobOps_ordered (x : ItaMatMulL1) (acc : Accelerator L) (k : Fin 1) (n : Nat) :
    Ordered (fun _ => True) k (x.underWay acc k n) (x.jobOps acc n) ∧
      left k (x.underWay acc k n) (x.jobOps acc n) = x.underWay acc k (n + 1) := by
  have hjob : ∀ t : Nat, Ordered (fun _ => True) k [] [ita_trigger (x.job acc t)] ∧
      left k [] [ita_trigger (x.job acc t)] = x.underWay acc k (t + 1) :=
    fun t => ⟨⟨List.pairwise_singleton _ _,
      fun _ _ _ ht => absurd ht List.not_mem_nil, trivial⟩, rfl⟩
  -- the job before has been waited for, so that nothing is under way
  match n with
  | 0 => exact hjob 0
  | n + 1 => exact hjob (n + 1)

theorem jobs_ordered (k : Fin 1) (n : Nat) :
    Ordered (fun _ => True) k [] ((List.range n).flatMap (x.jobOps acc)) ∧
      left k [] ((List.range n).flatMap (x.jobOps acc)) = x.underWay acc k n := by
  induction n with
  | zero => exact ⟨trivial, rfl⟩
  | succ n ih =>
    obtain ⟨hord, hleft⟩ := ih
    obtain ⟨hord', hleft'⟩ := jobOps_ordered x acc k n
    rw [List.range_succ, List.flatMap_append, List.flatMap_singleton]
    refine ⟨hord.append (hleft ▸ hord'), ?_⟩
    rw [left_append, hleft, hleft']

theorem jobOps_free (t : Nat) : ∀ op ∈ x.jobOps acc t, op.isBarrier = false := by
  intro op hop
  unfold jobOps at hop
  simp only [List.mem_append, List.mem_singleton] at hop
  obtain rfl | hop | rfl := hop
  · rfl
  · split at hop
    · exact absurd hop List.not_mem_nil
    · obtain rfl := List.mem_singleton.mp hop
      rfl
  · rfl

theorem work_jobOps (t : Nat) : work (x.jobOps acc t) = [x.job acc t] := by
  unfold jobOps
  rw [work_append, work_append]
  split <;> rfl

theorem work_jobs (n : Nat) :
    work ((List.range n).flatMap (x.jobOps acc)) = (List.range n).map (x.job acc) := by
  induction n with
  | zero => rfl
  | succ n ih =>
    rw [List.range_succ, List.flatMap_append, List.flatMap_singleton, work_append, ih, work_jobOps,
      List.map_append]
    rfl

/-- **The jobs run one after the other**: each is triggered when the one
    before is done. -/
theorem matmul_serial (hx : x.Shaped) (habove : x.Above) {regs : Regs} {m m' : Mem × L}
    (h : Ends (fun _ : Fin 1 => x.matmul acc regs) m m') :
    m' = perform ((List.range x.jobs).map (x.job acc)) m := by
  have hcode : x.matmul acc regs = (List.range x.jobs).flatMap (x.jobOps acc) ++
    [ita_wait_job] := by
    unfold matmul
    rw [loop_eq, ops_eq hx habove regs le_rfl]
  have hcomm : Commuting (fun _ => True) (fun _ : Fin 1 => x.matmul acc regs) := by
    refine ⟨?_, fun _ _ _ _ _ => trivial, ?_, fun k k' hne => absurd (Subsingleton.elim k k') hne⟩
    · intro _ op hop
      rw [hcode] at hop
      obtain hop | hop := List.mem_append.mp hop
      · obtain ⟨t, _, hop⟩ := List.mem_flatMap.mp hop
        exact jobOps_free t op hop
      · obtain rfl := List.mem_singleton.mp hop
        rfl
    · intro k
      rw [hcode]
      exact (jobs_ordered k x.jobs).1.append trivial
  have hend := hcomm.ends trivial h
  rw [inTurn_one, hcode, work_append, work_jobs] at hend
  exact hend.trans (by rw [perform_append]; rfl)

/-! ### What the jobs leave -/

/-- The matrices that are read lie apart from the output. -/
structure Placed (x : ItaMatMulL1) : Prop where
  input_a : Apart x.input_a_l1
    (x.N_TILE_SEQUENCE_LENGTH * x.N_TILE_EMBEDDING_SPACE * x.tile_size_input_a)
    x.output_l1 (x.N_TILE_SEQUENCE_LENGTH * x.N_TILE_PROJECTION_SPACE * x.tile_size_output)
  input_b : Apart x.input_b_l1
    (x.N_TILE_PROJECTION_SPACE * x.N_TILE_EMBEDDING_SPACE * x.tile_size_input_b)
    x.output_l1 (x.N_TILE_SEQUENCE_LENGTH * x.N_TILE_PROJECTION_SPACE * x.tile_size_output)
  bias : Apart x.bias_l1 (x.N_TILE_PROJECTION_SPACE * x.tile_size_bias)
    x.output_l1 (x.N_TILE_SEQUENCE_LENGTH * x.N_TILE_PROJECTION_SPACE * x.tile_size_output)

/-- The address lies in the output. -/
def InOutput (x : ItaMatMulL1) (p : Nat) : Prop :=
  x.output_l1 ≤ p ∧
    p < x.output_l1 + x.N_TILE_SEQUENCE_LENGTH * x.N_TILE_PROJECTION_SPACE * x.tile_size_output

/-- The state of the accelerator after the job `t`. -/
def jobState (x : ItaMatMulL1) (acc : Accelerator L) (t : Nat) (m : Mem × L) : L :=
  acc.step (x.jobFlags t) (tileAt m.1 (x.inputTile t) x.tile_size_input_a)
    (tileAt m.1 (x.weightTile t) x.tile_size_input_b)
    (nextAt (x.jobFlags t) m.1 (x.nextTile t) x.tile_size_input_b)
    (tileAt m.1 (x.biasTile t) x.tile_size_bias) m.2

/-- A job, without the offsets into the cluster. -/
theorem job_eq (habove : x.Above) (acc : Accelerator L) (t : Nat) (m : Mem × L) :
    x.job acc t m =
      (if (x.jobFlags t).testBit 4 then m.1 else fun p =>
        if x.resultTile (x.tileOf t) ≤ p ∧ p < x.resultTile (x.tileOf t) + x.tile_size_output then
          acc.out (x.jobState acc t m) (p - x.resultTile (x.tileOf t)) else m.1 p,
        x.jobState acc t m) := by
  have hle : ∀ {p q : Nat}, x.CLUSTER_4_BASE < p →
      x.CLUSTER_4_BASE + (p + q - x.CLUSTER_4_BASE) = p + q :=
    fun h => Nat.add_sub_cancel' (Nat.le_add_right_of_le h.le)
  unfold job Accelerator.job jobState jobRegs inputTile weightTile nextTile biasTile resultTile
  dsimp only
  rw [hle habove.input_a, hle habove.input_b, hle habove.input_b, hle habove.bias,
    hle habove.output]
  rfl

/-- The state of the accelerator after `t` jobs on the tiles of the
    matrices. -/
def stateAt (x : ItaMatMulL1) (acc : Accelerator L) (mem : Mem) (l : L) (t : Nat) : L :=
  x.toDims.stateAt acc x.inputTile x.weightTile x.nextTile x.biasTile mem l t

/-- What `t` jobs leave. -/
structure Results (x : ItaMatMulL1) (acc : Accelerator L) (mem : Mem) (l : L) (t : Nat)
    (m : Mem × L) : Prop where
  state : m.2 = x.stateAt acc mem l t
  tiles : ∀ u q, (u + 1) * x.N_TILE_EMBEDDING_SPACE ≤ t → q < x.tile_size_output →
    m.1 (x.resultTile u + q) = acc.out (x.stateAt acc mem l ((u + 1) * x.N_TILE_EMBEDDING_SPACE)) q
  outside : ∀ p, ¬ x.InOutput p → m.1 p = mem p

section Step

variable {mem : Mem} {l : L} {t : Nat} {m : Mem × L}

/-- The job `t` makes the next state. -/
theorem Results.jobState_eq (h : x.Results acc mem l t m) (hx : x.Shaped) (hplaced : x.Placed)
    (ht : t < x.jobs) :
    x.jobState acc t m = x.stateAt acc mem l (t + 1) := by
  -- a tile of a matrix apart from the output
  have hread : ∀ {a tiles u n q : Nat}, Apart a (tiles * n) x.output_l1
      (x.N_TILE_SEQUENCE_LENGTH * x.N_TILE_PROJECTION_SPACE * x.tile_size_output) → u < tiles →
      q < n → m.1 (a + u * n + q) = mem (a + u * n + q) := by
    intro a tiles u n q happ hu hq
    obtain ⟨hlo, hhi⟩ := tile_within (n := n) (p := a) hu
    apply h.outside
    unfold Apart at happ
    unfold InOutput
    omega
  have hinput : tileAt m.1 (x.inputTile t) x.tile_size_input_a =
      tileAt mem (x.inputTile t) x.tile_size_input_a :=
    tileAt_congr fun q hq => hread hplaced.input_a (index_lt (iOf_lt ht) (kOf_lt hx t)) hq
  have hweight : tileAt m.1 (x.weightTile t) x.tile_size_input_b =
      tileAt mem (x.weightTile t) x.tile_size_input_b :=
    tileAt_congr fun q hq => hread hplaced.input_b (index_lt (jOf_lt hx t) (kOf_lt hx t)) hq
  have hnext : nextAt (x.jobFlags t) m.1 (x.nextTile t) x.tile_size_input_b =
      nextAt (x.jobFlags t) mem (x.nextTile t) x.tile_size_input_b :=
    nextAt_congr fun _ q hq =>
      hread hplaced.input_b (index_lt (jOf_lt hx t) (Nat.mod_lt (x.kOf t + 1) hx.E)) hq
  have hbias : tileAt m.1 (x.biasTile t) x.tile_size_bias =
      tileAt mem (x.biasTile t) x.tile_size_bias := by
    have htile : x.biasTile t = x.bias_l1 + x.jOf t * x.tile_size_bias := by
      unfold biasTile tile_size_bias
      rw [← Nat.mul_assoc, Nat.mul_comm 3, Nat.mul_assoc, Nat.mul_comm 3]
    rw [htile]
    exact tileAt_congr fun q hq => hread hplaced.bias (jOf_lt hx t) hq
  unfold jobState
  rw [hinput, hweight, hnext, hbias, h.state]
  rfl

theorem Results.step (h : x.Results acc mem l t m) (hx : x.Shaped) (habove : x.Above)
    (hplaced : x.Placed) (ht : t < x.jobs) : x.Results acc mem l (t + 1) (x.job acc t m) := by
  have hjob := h.jobState_eq hx hplaced ht
  rw [job_eq habove, hjob]
  refine ⟨rfl, ?_, ?_⟩
  · intro u q hu hq
    dsimp only
    by_cases hlast : (u + 1) * x.N_TILE_EMBEDDING_SPACE = t + 1
    · -- the job finishes the tile
      obtain ⟨htile, hk⟩ := last_of_tile hx hlast
      have hflag : ¬ (x.jobFlags t).testBit 4 = true := by
        rw [(output_enabled x.toDims t).mpr hk]
        exact Bool.false_ne_true
      rw [if_neg hflag, htile, if_pos (by omega), Nat.add_sub_cancel_left, hlast]
    · have hold := h.tiles u q (by omega) hq
      by_cases hflag : (x.jobFlags t).testBit 4 = true
      · rw [if_pos hflag]
        exact hold
      · -- it finishes another tile
        have hk := (output_enabled x.toDims t).mp (Bool.eq_false_iff.mpr hflag)
        have hne : u ≠ x.tileOf t := by
          intro heq
          have hindex := job_index x.toDims t
          have hE := hx.E
          rw [← heq, hk] at hindex
          rw [Nat.succ_mul] at hlast
          omega
        have hout : ¬ (x.resultTile (x.tileOf t) ≤ x.resultTile u + q ∧
            x.resultTile u + q < x.resultTile (x.tileOf t) + x.tile_size_output) := by
          have htiles := tile_outside (p := x.output_l1) hne hq
          unfold resultTile
          omega
        rw [if_neg hflag, if_neg hout]
        exact hold
  · intro p hp
    dsimp only
    by_cases hflag : (x.jobFlags t).testBit 4 = true
    · rw [if_pos hflag]
      exact h.outside p hp
    · obtain ⟨hlo, hhi⟩ := tile_within (n := x.tile_size_output) (p := x.output_l1) (tileOf_lt ht)
      have hout : ¬ (x.resultTile (x.tileOf t) ≤ p ∧
          p < x.resultTile (x.tileOf t) + x.tile_size_output) := by
        unfold InOutput at hp
        unfold resultTile
        omega
      rw [if_neg hflag, if_neg hout]
      exact h.outside p hp

theorem results (hx : x.Shaped) (habove : x.Above) (hplaced : x.Placed) (mem : Mem) (l : L)
    {n : Nat} (hn : n ≤ x.jobs) :
    x.Results acc mem l n (perform ((List.range n).map (x.job acc)) (mem, l)) := by
  induction n with
  | zero =>
    refine ⟨rfl, ?_, fun _ _ => rfl⟩
    intro u q hu
    exact absurd hu (Nat.not_le_of_gt (Nat.mul_pos (Nat.succ_pos u) hx.E))
  | succ n ih =>
    rw [List.range_succ, List.map_append, perform_append]
    exact (ih (by omega)).step hx habove hplaced hn

end Step

/-! ## Section 4: The two programs -/

/-- The matrices of the two programs have the same bytes. -/
structure SameMatrices (x : ItaMatMulL1) (y : ItaMatMul) (mem mem' : Mem) : Prop where
  input_a : ∀ q, q < x.N_TILE_SEQUENCE_LENGTH * x.N_TILE_EMBEDDING_SPACE * x.tile_size_input_a →
    mem (x.input_a_l1 + q) = mem' (y.input_a_l2 + q)
  input_b : ∀ q, q < x.N_TILE_PROJECTION_SPACE * x.N_TILE_EMBEDDING_SPACE * x.tile_size_input_b →
    mem (x.input_b_l1 + q) = mem' (y.input_b_l2 + q)
  bias : ∀ q, q < x.N_TILE_PROJECTION_SPACE * x.tile_size_bias →
    mem (x.bias_l1 + q) = mem' (y.bias_l2 + q)

theorem tile_eq {mem mem' : Mem} {a b tiles u n : Nat}
    (h : ∀ q, q < tiles * n → mem (a + q) = mem' (b + q)) (hu : u < tiles) :
    tileAt mem (a + u * n) n = tileAt mem' (b + u * n) n := by
  apply tileAt_congr
  intro q hq
  have htile := tile_within (n := n) (p := 0) hu
  rw [Nat.add_assoc, Nat.add_assoc]
  exact h _ (by omega)

/-- The weights that each job names as the next ones have the bytes of those
    of the next job. -/
def NextNamed (x : ItaMatMulL1) (mem : Mem) : Prop :=
  ∀ t, t + 1 < x.jobs → tileAt mem (x.nextTile t) x.tile_size_input_b =
    tileAt mem (x.weightTile (t + 1)) x.tile_size_input_b

theorem SameMatrices.weight {y : ItaMatMul} {mem mem' : Mem} (h : x.SameMatrices y mem mem')
    (hdims : x.toDims = y.toDims) (hx : x.Shaped) (t : Nat) :
    tileAt mem (x.weightTile t) x.tile_size_input_b =
      tileAt mem' (y.weightTile t) y.tile_size_input_b := by
  unfold weightTile ItaMatMul.weightTile
  rw [← hdims]
  exact tile_eq h.input_b (index_lt (jOf_lt hx t) (kOf_lt hx t))

theorem SameMatrices.biasTile {y : ItaMatMul} {mem mem' : Mem} (h : x.SameMatrices y mem mem')
    (hdims : x.toDims = y.toDims) (hx : x.Shaped) (t : Nat) :
    tileAt mem (x.biasTile t) x.tile_size_bias = tileAt mem' (y.biasTile t) y.tile_size_bias := by
  have hoffset : 3 * (x.jOf t * x.TILE_SIZE_PROJECTION_SPACE) = x.jOf t * x.tile_size_bias := by
    unfold tile_size_bias
    rw [← Nat.mul_assoc, Nat.mul_comm 3, Nat.mul_assoc, Nat.mul_comm 3]
  unfold ItaMatMulL1.biasTile ItaMatMul.biasTile
  rw [← hdims, hoffset]
  exact tile_eq h.bias (jOf_lt hx t)

/-- The same matrices make the same states, if the next weights are the same
    or do not matter. -/
theorem stateAt_eq {y : ItaMatMul} (hdims : x.toDims = y.toDims) (hx : x.Shaped) {mem mem' : Mem}
    (h : x.SameMatrices y mem mem') (hnamed : acc.IgnoresNext ∨ x.NextNamed mem) (l : L) {t : Nat}
    (ht : t ≤ x.jobs) : x.stateAt acc mem l t = y.stateAt acc mem' l t := by
  induction t with
  | zero => rfl
  | succ t ih =>
    have hinput : tileAt mem (x.inputTile t) x.tile_size_input_a =
        tileAt mem' (y.inputTile t) y.tile_size_input_a := by
      unfold inputTile ItaMatMul.inputTile
      rw [← hdims]
      exact tile_eq h.input_a (index_lt (iOf_lt ht) (kOf_lt hx t))
    have hflags : x.jobFlags t = y.jobFlags t := congrArg (fun d => d.jobFlags t) hdims
    show acc.step _ _ _ _ _ (x.stateAt acc mem l t) = acc.step _ _ _ _ _ (y.stateAt acc mem' l t)
    rw [ih (by omega), hinput, h.weight hdims hx, h.biasTile hdims hx, hflags]
    obtain hignores | hnamed := hnamed
    · exact hignores ..
    · have hnext : nextAt (y.jobFlags t) mem (x.nextTile t) x.tile_size_input_b =
          nextAt (y.jobFlags t) mem' (y.weightTile (t + 1)) y.tile_size_input_b := by
        unfold nextAt
        split
        · next hflag =>
          have hlast := (next_enabled y.toDims t).mp hflag
          rw [← hdims] at hlast
          exact (hnamed t (by omega)).trans (h.weight hdims hx (t + 1))
        · rfl
      rw [hnext]

/-- Whatever the two programs do, they leave the same tiles. -/
def Agrees [Runtime] (x : ItaMatMulL1) (y : ItaMatMul) (acc : Accelerator L) (regs regs' : Regs)
    (mem mem' : Mem) (l : L) : Prop :=
  ∀ m m', Ends (fun _ : Fin 1 => x.matmul acc regs) (mem, l) m →
    Ends (fun _ : Fin 1 => y.matmul acc regs') (mem', l) m' →
    ∀ u q, u < x.N_TILE_SEQUENCE_LENGTH * x.N_TILE_PROJECTION_SPACE → q < x.tile_size_output →
      m.1 (x.resultTile u + q) = m'.1 (y.resultTile u + q)

section Agree

variable {y : ItaMatMul} {mem mem' : Mem} {regs regs' : Regs} {l : L}

/-- What the program within the cluster leaves. -/
theorem matmul_ends (hx : x.Shaped) (habove : x.Above) (hplaced : x.Placed) {m : Mem × L}
    (hend : Ends (fun _ : Fin 1 => x.matmul acc regs) (mem, l) m) :
    x.Results acc mem l x.jobs m := by
  rw [matmul_serial hx habove hend]
  exact results hx habove hplaced mem l le_rfl

theorem agrees (hdims : x.toDims = y.toDims) (hx : x.Shaped) (habove : x.Above) (hplaced : x.Placed)
    (habove' : y.Above) (hplaced' : y.Placed) (hsame : x.SameMatrices y mem mem')
    (hbias : y.SameBias mem') (hnext : acc.IgnoresNext ∨ y.SameNext mem' ∧ x.NextNamed mem) :
    x.Agrees y acc regs regs' mem mem' l := by
  intro m m' hend hend' u q hu hq
  have hy : y.Shaped := hdims ▸ hx
  have hle : (u + 1) * x.N_TILE_EMBEDDING_SPACE ≤ x.jobs := Nat.mul_le_mul_right _ hu
  have hdelivered := ItaMatMul.matmul_ends hy habove' hplaced' hbias
    (hnext.imp_right And.left) hend'
  have hresults := matmul_ends hx habove hplaced hend
  rw [hresults.tiles u q hle hq, hdelivered.tiles u q (hdims ▸ hu) (hdims ▸ hq),
    stateAt_eq hdims hx hsame (hnext.imp_right And.right) l hle]
  unfold ItaMatMul.outputByte
  rw [← hdims]

/-- Within the cluster an accelerator that expects what it is given finds
    nothing else, so that the programs do not agree where it shows
    something. -/
theorem not_agrees_of_shows (hdims : x.toDims = y.toDims) (hx : x.Shaped) (habove : x.Above)
    (hplaced : x.Placed) (hsize : 0 < x.tile_size_output) {t : Nat}
    {expects : List UInt8 → List UInt8 → Bool}
    (hshows : y.Shows regs' (ItaMatMul.watching t expects) mem')
    (hexpected : expects (nextAt (x.jobFlags t) mem (x.nextTile t) x.tile_size_input_b)
      (tileAt mem (x.biasTile t) x.tile_size_bias) = true) :
    ¬ x.Agrees y (ItaMatMul.watching t expects) regs regs' mem mem' (0, false) := by
  intro hagrees
  obtain ⟨m', hend', hone⟩ := hshows
  obtain ⟨m, hend⟩ := exists_ends Nat.one_pos
    (balanced_one (x.matmul (ItaMatMul.watching t expects) regs)) (mem, (0, false))
  have hlast := ItaMatMul.lastTile_succ (x := y) (hdims ▸ hx)
  have hu : y.lastTile < x.N_TILE_SEQUENCE_LENGTH * x.N_TILE_PROJECTION_SPACE := by
    rw [hdims]
    omega
  have htile := (matmul_ends hx habove hplaced hend).tiles y.lastTile 0
    (Nat.mul_le_mul_right _ hu) hsize
  have hequal := hagrees m m' hend hend' y.lastTile 0 hu hsize
  unfold stateAt at htile
  rw [hone, htile, ItaMatMul.stateAt_watching x.toDims (.inr hexpected)] at hequal
  have hzero : (0 : UInt8) = 1 := hequal
  exact absurd hzero (by decide)

end Agree

/-- **The two programs agree** in every pair of their runs, with every
    accelerator that does not depend on the weights of the next job, exactly
    when all tiles of the bias are alike.  With every accelerator they agree
    exactly when besides no transfer of weights changes its buffer, and the
    program within the cluster names the weights of the next job. -/
theorem ita_matmul_l1_l2_agree [rt : Runtime] {y : ItaMatMul} (hdims : x.toDims = y.toDims)
    (hx : x.Shaped)
    (habove : x.Above) (hplaced : x.Placed) (habove' : y.Above) (hplaced' : y.Placed)
    (hsize : 0 < x.tile_size_output) {mem mem' : Mem} (hsame : x.SameMatrices y mem mem')
    (regs regs' : Regs) :
    ((∀ (L : Type) (acc : Accelerator L) (l : L), acc.IgnoresNext →
        x.Agrees y acc regs regs' mem mem' l) ↔ y.SameBias mem') ∧
    ((∀ (L : Type) (acc : Accelerator L) (l : L), x.Agrees y acc regs regs' mem mem' l) ↔
      y.SameBias mem' ∧ y.SameNext mem' ∧ x.NextNamed mem) := by
  obtain rfl := rt.eq_modelled
  have hy : y.Shaped := hdims ▸ hx
  have hsize' : 0 < y.tile_size_output := hdims ▸ hsize
  have hbias : (∀ (L : Type) (acc : Accelerator L) (l : L), acc.IgnoresNext →
      x.Agrees y acc regs regs' mem mem' l) → y.SameBias mem' := by
    intro h
    by_contra hdiff
    obtain ⟨t, hshows⟩ := ItaMatMul.shows_bias hy habove' hplaced' hsize' regs' hdiff
    refine not_agrees_of_shows hdims hx habove hplaced hsize hshows ?_
      (h _ _ _ (ItaMatMul.watchingBias_ignoresNext t _))
    exact beq_iff_eq.mpr (hsame.biasTile hdims hx t)
  refine ⟨⟨hbias, ?_⟩, ?_, ?_⟩
  · intro hall L acc l hignores
    exact agrees hdims hx habove hplaced habove' hplaced' hsame hall (.inl hignores)
  · intro h
    have hall := hbias fun L acc l _ => h L acc l
    have hnext : y.SameNext mem' := by
      by_contra hdiff
      obtain ⟨t, _, hshows⟩ := ItaMatMul.shows_next hy habove' hplaced' hsize' regs' hall hdiff
      exact not_agrees_of_shows hdims hx habove hplaced hsize (hshows _) (beq_self_eq_true _)
        (h _ _ _)
    refine ⟨hall, hnext, ?_⟩
    intro t ht
    by_contra hdiff
    have hother : tileAt mem' (y.weightTile (t + 1)) y.tile_size_input_b ≠
        tileAt mem (x.nextTile t) x.tile_size_input_b :=
      fun heq => hdiff (heq.symm.trans (hsame.weight hdims hx (t + 1)).symm)
    have hshows := ItaMatMul.shows_fetched hy habove' hplaced' hsize' regs' hall hnext
      (show t + 1 < y.jobs from hdims ▸ ht) hother
    refine not_agrees_of_shows hdims hx habove hplaced hsize hshows ?_ (h _ _ _)
    apply beq_iff_eq.mpr
    unfold nextAt
    rw [if_pos ((next_enabled x.toDims t).mpr ht.ne)]
  · intro ⟨hall, hnext⟩ L acc l
    exact agrees hdims hx habove hplaced habove' hplaced' hsame hall (.inr hnext)

/-- A row of two tiles within the cluster. -/
def twoColumns : ItaMatMulL1 where
  toDims := ItaMatMul.twoColumns.toDims
  input_a_l1 := 16
  input_b_l1 := 32
  bias_l1 := 48
  output_l1 := 64

/-- Bytes that count up to 15 over and over, as far as `limit`. -/
def counting (limit : Nat) : Mem := fun p => if p < limit then UInt8.ofNat (p % 16) else 0

/-- On two tiles of different weights the programs agree for the accelerators
    that do not depend on the next weights, and not for all. -/
theorem ita_matmul_l1_l2_agree_twoColumns :
    (∀ (L : Type) (acc : Accelerator L) (l : L), acc.IgnoresNext →
      twoColumns.Agrees ItaMatMul.twoColumns acc ⟨0, 0, 0, 0, 0, 0⟩ ⟨1, 2, 3, 4, 5, 6⟩
        (counting 48) (counting 288) l) ∧
    ¬ ∀ (L : Type) (acc : Accelerator L) (l : L),
      twoColumns.Agrees ItaMatMul.twoColumns acc ⟨0, 0, 0, 0, 0, 0⟩ ⟨1, 2, 3, 4, 5, 6⟩
        (counting 48) (counting 288) l := by
  have hsame : twoColumns.SameMatrices ItaMatMul.twoColumns (counting 48) (counting 288) :=
    ⟨by decide, by decide, by decide⟩
  have hiff := ita_matmul_l1_l2_agree (x := twoColumns) (y := ItaMatMul.twoColumns) rfl
    ⟨by decide, by decide, by decide⟩ ⟨by decide, by decide, by decide, by decide⟩
    ⟨by decide, by decide, by decide⟩ ⟨by decide, by decide, by decide, by decide⟩ (by decide)
    (by decide) hsame ⟨0, 0, 0, 0, 0, 0⟩ ⟨1, 2, 3, 4, 5, 6⟩
  constructor
  · apply hiff.1.mpr
    intro j q hj hq
    have hlo : ∀ p, ¬ ItaMatMul.twoColumns.bias_l2 + p < 288 := fun p => by
      show ¬ 288 + p < 288
      omega
    unfold counting
    rw [Nat.add_assoc, if_neg (hlo _), if_neg (hlo _)]
  · intro h
    have hnamed := (hiff.2.mp h).2.2
    exact absurd (hnamed 0 (by decide)) (by decide)

/-! ### The weights of the next job -/

/-- The weights that the job `t` names as the next ones are those of the
    next job, up to the last job. -/
def NamesNext (regs : Nat → Regs) (jobs : Nat) : Prop :=
  ∀ t, t + 1 < jobs → (regs t).weight_next = (regs (t + 1)).weight

/-- With double buffers they always are. -/
theorem l2_names_next (y : ItaMatMul) : NamesNext y.jobRegs y.jobs := by
  intro t _
  unfold ItaMatMul.jobRegs
  rw [parity_succ]

/-- At the end of a column, the first tile of the same column is named. -/
theorem setRegs_columnEnd (hx : x.Shaped) (habove : x.Above) (i j : Nat) (regs : Regs) :
    (x.setRegs i j (x.N_TILE_EMBEDDING_SPACE - 1) regs).weight_next =
      x.input_b_l1 + j * x.N_TILE_EMBEDDING_SPACE * x.tile_size_input_b - x.CLUSTER_4_BASE := by
  have hb := habove.input_b
  unfold setRegs ita_set_flags ita_set_addresses
  dsimp only
  rw [Nat.sub_add_cancel hx.E, Nat.mod_self, Nat.add_zero, if_pos (Nat.lt_add_right _ hb)]

/-- With one column of tiles, the weights of the next job are named. -/
theorem nextTile_of_one (hx : x.Shaped) (hone : x.N_TILE_PROJECTION_SPACE = 1) (t : Nat) :
    x.nextTile t = x.weightTile (t + 1) := by
  have hj : ∀ t, x.jOf t = 0 := by
    intro t
    have hlt := jOf_lt hx t
    omega
  have hk : x.kOf (t + 1) = (x.kOf t + 1) % x.N_TILE_EMBEDDING_SPACE := by
    unfold kOf
    rw [Nat.mod_add_mod]
  unfold nextTile weightTile
  rw [hj, hj, hk]

theorem nextNamed_of_one (hx : x.Shaped) (hone : x.N_TILE_PROJECTION_SPACE = 1) (mem : Mem) :
    x.NextNamed mem := by
  intro t _
  rw [nextTile_of_one hx hone]

/-- The jobs name the weights of the next one only if these have one column
    of tiles. -/
theorem names_next_iff (hx : x.Shaped) (habove : x.Above) (hsize : 0 < x.tile_size_input_b) :
    NamesNext x.jobRegs x.jobs ↔ x.N_TILE_PROJECTION_SPACE = 1 := by
  have hcancel : ∀ a b : Nat,
    (x.input_b_l1 + a - x.CLUSTER_4_BASE = x.input_b_l1 + b - x.CLUSTER_4_BASE) ↔
      a = b := by
    intro a b
    have hb := habove.input_b
    omega
  have hE := hx.E
  constructor
  · intro h
    by_contra hne
    have hP : 2 ≤ x.N_TILE_PROJECTION_SPACE := by
      have := hx.P
      omega
    -- the last job of the first tile of the output
    obtain ⟨e, he⟩ := Nat.exists_eq_succ_of_ne_zero hE.ne'
    have hjobs : e + 1 < x.jobs := by
      have hcols : 1 * 2 ≤ x.N_TILE_SEQUENCE_LENGTH * x.N_TILE_PROJECTION_SPACE :=
        Nat.mul_le_mul hx.S hP
      have hall := Nat.mul_le_mul_right x.N_TILE_EMBEDDING_SPACE hcols
      unfold jobs
      omega
    have hnext := h e hjobs
    have hthis : x.jOf e = 0 ∧ x.kOf e = e := by
      unfold jOf tileOf kOf
      rw [he, Nat.div_eq_of_lt (Nat.lt_succ_self e), Nat.zero_mod,
        Nat.mod_eq_of_lt (Nat.lt_succ_self e)]
      exact ⟨rfl, rfl⟩
    have hthat : x.jOf (e + 1) = 1 ∧ x.kOf (e + 1) = 0 := by
      unfold jOf tileOf kOf
      rw [he, Nat.div_self (Nat.succ_pos e), Nat.mod_self, Nat.mod_eq_of_lt hP]
      exact ⟨rfl, rfl⟩
    unfold jobRegs nextTile weightTile at hnext
    dsimp only at hnext
    rw [hcancel, hthis.1, hthis.2, hthat.1, hthat.2, he, Nat.mod_self, Nat.zero_mul, Nat.add_zero,
      Nat.zero_mul, Nat.one_mul, Nat.add_zero] at hnext
    exact absurd hnext (Nat.mul_pos (Nat.succ_pos e) hsize).ne
  · intro hone t _
    unfold jobRegs
    dsimp only
    rw [nextTile_of_one hx hone]

/-- **Within the cluster** the next weights are those of the next job only if
    the weights have one column of tiles: the index `j` of the next job is not
    taken into account, and the first tile of the same column is named at
    the end of a column. -/
theorem l1_names_next_iff (hx : x.Shaped) (habove : x.Above) (hsize : 0 < x.tile_size_input_b) :
    (NamesNext x.jobRegs x.jobs ↔ x.N_TILE_PROJECTION_SPACE = 1) ∧
    ∀ i j regs, (x.setRegs i j (x.N_TILE_EMBEDDING_SPACE - 1) regs).weight_next =
      x.input_b_l1 + j * x.N_TILE_EMBEDDING_SPACE * x.tile_size_input_b - x.CLUSTER_4_BASE :=
  ⟨names_next_iff hx habove hsize, setRegs_columnEnd hx habove⟩

theorem l1_names_next_twoColumns : ¬ NamesNext twoColumns.jobRegs twoColumns.jobs ∧
    (twoColumns.setRegs 0 0 0 ⟨0, 0, 0, 0, 0, 0⟩).weight_next = 32 := by
  have hnames := l1_names_next_iff (x := twoColumns) ⟨by decide, by decide, by decide⟩
    ⟨by decide, by decide, by decide, by decide⟩ (by decide)
  refine ⟨?_, hnames.2 0 0 _⟩
  intro h
  exact absurd (hnames.1.mp h) (by decide)

end ItaMatMulL1

end Snrt
