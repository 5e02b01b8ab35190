import ChimeraSdk.Host.Clint
import ChimeraSdk.Target.SocAddrMap

/-! # The Verdict of test_cluster

    `test_cluster` of chimera-convolve offloads a test to the configured
    clusters, serves them until all are idle or the deadline has passed,
    collects their return words and, in interactive mode, asks whether to
    run again.  Its result is read as a verdict: zero is a test that has
    passed.

    One pass of its loop is a function of what the pass reads: the lines
    from the user, the scratch registers, the timer, the busy and the
    return registers.  A run is a list of passes. -/

open Clint Soc

namespace TestCluster

/-! ## Section 1: What a pass reads -/

inductive TestMode where
  | automatic
  | dutctl
  | interactive
  deriving DecidableEq, Repr

/-- `test_cluster_cfg_t`, as far as it decides the result. -/
structure TestClusterCfg where
  mode : TestMode
  default_frequency_mhz : BitVec 32
  timeout : BitVec 32
  clusterIds : List (BitVec 8)

def TestClusterCfg.clusters (cfg : TestClusterCfg) : Nat := cfg.clusterIds.length

/-- The build and the board: whether `HARDWARE_BACKEND_ASIC` is defined
    and the frequency of the timer. -/
structure Platform where
  asic : Bool
  rtc_freq : BitVec 32

/-- One round of the service loop: the busy register of each configured
    cluster and the time. -/
structure Poll where
  busy : Nat → BitVec 32
  current_time : ClintMtime

/-- What one pass reads.  `none` is an `fgets` that returns `NULL`; the
    line of the target frequency is given by the number `atoi` finds in
    it. -/
structure Pass where
  repetitionsRead : Bool
  scratch3 : BitVec 32
  frequency : Option (BitVec 32)
  configure_fll : BitVec 32 → BitVec 32
  start_time : ClintMtime
  polls : List Poll
  returnReg : Nat → List (BitVec 32)
  answer : Option Char

/-! ## Section 2: One pass -/

/-- How a pass continues behind the configuration of the clock. -/
inductive Setup where
  | ready
  /-- `continue` -/
  | retry
  /-- `return -1` -/
  | failed
  deriving DecidableEq, Repr

/-- `target_freq_mhz`. -/
def target_freq_mhz (cfg : TestClusterCfg) (p : Pass) : Option (BitVec 32) :=
  match cfg.mode with
  | .dutctl => some p.scratch3
  | .interactive => p.frequency
  | .automatic => some cfg.default_frequency_mhz

def configureFrequency (cfg : TestClusterCfg) (p : Pass) : Setup :=
  match target_freq_mhz cfg p with
  | none => .failed
  | some mhz =>
      if mhz = -1 then .ready
      -- out of range: the pass starts over
      else if mhz.slt 10 || BitVec.slt 1000 mhz then .retry
      else if p.configure_fll (mhz * 1000000) = 0 then .failed
      else .ready

def setup (b : Platform) (cfg : TestClusterCfg) (p : Pass) : Setup :=
  if cfg.mode = .interactive ∧ p.repetitionsRead = false then .failed
  else if b.asic then configureFrequency cfg p
  else .ready

/-- The deadline: the low word is advanced, with a carry into the high
    word. -/
def deadline (b : Platform) (cfg : TestClusterCfg) (start_time : ClintMtime) : ClintMtime :=
  let timeout_ticks := b.rtc_freq * cfg.timeout / 1000
  let low := start_time.low + timeout_ticks
  { low := low
    high := if low < start_time.low then start_time.high + 1 else start_time.high }

/-- The busy register, or -1 for a cluster that does not exist. -/
def snitchCluster_busy (clusterId : BitVec 8) (busyReg : BitVec 32) : BitVec 32 :=
  if clusterId.toNat < NUM_CLUSTERS then busyReg else -1

/-- The number of configured clusters that a poll finds idle. -/
def Poll.done (q : Poll) (cfg : TestClusterCfg) : Nat :=
  (cfg.clusterIds.zipIdx.map fun (clusterId, id) =>
    if snitchCluster_busy clusterId (q.busy id) ≠ 0 then 0 else 1).sum

def Poll.late (q : Poll) (deadline : ClintMtime) : Bool :=
  Clint32.clint_mtime_less_than deadline q.current_time

/-- The service loop; its value is `timed_out`.  `none` is a loop that
    needs more polls. -/
def service (cfg : TestClusterCfg) (deadline : ClintMtime) (done : Nat) : List Poll → Option Bool
  | [] => if done = cfg.clusters then some false else none
  | q :: qs =>
      if done = cfg.clusters then some false
      -- the deadline is tested also when the poll finds all clusters idle
      else if q.late deadline then some true
      else service cfg deadline (q.done cfg) qs

/-- Spin while the register reads zero; the value is read once more. -/
def wait_snitchCluster_return : List (BitVec 32) → Option (BitVec 32)
  | [] => none
  -- the value returned is read behind the loop, not in its condition
  | r :: rs => if r = 0 then wait_snitchCluster_return rs else rs.head?

/-- The loop over the clusters.  Every round overwrites `retVal`. -/
def collect (timed_out : Bool) (p : Pass) (retVal : BitVec 32) : List Nat → Option (BitVec 32)
  | [] => some retVal
  | id :: ids =>
      if timed_out then collect timed_out p 0 ids
      else (wait_snitchCluster_return (p.returnReg id)).bind fun word =>
        collect timed_out p (word >>> 1) ids

/-- Whether the user asks for another pass. -/
def runAgain (p : Pass) : Bool := p.answer = some 'y' || p.answer = some 'Y'

/-- The `break` behind the results: always, but for an interactive test
    that is run again. -/
def breaks (cfg : TestClusterCfg) (p : Pass) : Bool :=
  !(cfg.mode = .interactive && runAgain p)

/-- How a pass ends. -/
inductive PassEnd where
  | returns (value : BitVec 32)
  | loops (retVal : BitVec 32)
  deriving DecidableEq, Repr

def pass (b : Platform) (cfg : TestClusterCfg) (retVal : BitVec 32) (p : Pass) : Option PassEnd :=
  match setup b cfg p with
  | .failed => some (.returns (-1))
  | .retry => some (.loops retVal)
  | .ready =>
      (service cfg (deadline b cfg p.start_time) 0 p.polls).bind fun timed_out =>
      (collect timed_out p retVal (List.range cfg.clusters)).bind fun retVal =>
        -- the `break` comes before the test of `timed_out`
        if breaks cfg p then some (.returns retVal)
        else if timed_out then some (.returns (-1))
        else some (.loops retVal)

/-- `test_cluster`: its result, with the pass that has decided it. -/
def testLoop (b : Platform) (cfg : TestClusterCfg) (retVal : BitVec 32) :
    List Pass → Option (BitVec 32 × Pass)
  | [] => none
  | p :: ps => (pass b cfg retVal p).bind fun e =>
      match e with
      | .returns value => some (value, p)
      | .loops retVal => testLoop b cfg retVal ps

def test_cluster (b : Platform) (cfg : TestClusterCfg) (run : List Pass) :
    Option (BitVec 32 × Pass) :=
  testLoop b cfg 0 run

/-! ## Section 3: The verdict -/

/-- The deadline is missed: before the clusters are found idle in time, a
    poll is late. -/
def TimedOut (b : Platform) (cfg : TestClusterCfg) (p : Pass) : Prop :=
  cfg.clusters ≠ 0 ∧ ∃ pre q post, p.polls = pre ++ q :: post ∧
    q.late (deadline b cfg p.start_time) ∧ ∀ x ∈ pre, x.done cfg ≠ cfg.clusters

/-- The return words of the clusters, in the order of the configuration. -/
def words (p : Pass) (ids : List Nat) : Option (List (BitVec 32)) :=
  ids.mapM (fun id => wait_snitchCluster_return (p.returnReg id))

/-- What the result zero stands for. -/
def Passed (b : Platform) (cfg : TestClusterCfg) (p : Pass) : Prop :=
  ¬ TimedOut b cfg p ∧
  ∃ ws, words p (List.range cfg.clusters) = some ws ∧ ws.length = cfg.clusters ∧
    ∀ w ∈ ws, w >>> 1 = 0

/-- When the verdict is sound: a pass that runs the test and leaves the
    loop by `break` meets its deadline, and the last cluster does not
    succeed where another one fails. -/
def HoldsWhen (b : Platform) (cfg : TestClusterCfg) (p : Pass) : Prop :=
  setup b cfg p = .ready → breaks cfg p = true →
    ¬ TimedOut b cfg p ∧
    ∀ ws, words p (List.range cfg.clusters) = some ws →
      (∀ w, ws.getLast? = some w → w >>> 1 = 0) → ∀ w ∈ ws, w >>> 1 = 0

variable {b : Platform} {cfg : TestClusterCfg} {p : Pass}

/-- The service loop reports a timeout exactly when a poll is late before
    one finds all clusters idle. -/
theorem service_eq {dl : ClintMtime} {done : Nat} {polls : List Poll} {timed_out : Bool}
    (h : service cfg dl done polls = some timed_out) :
    timed_out = true ↔ done ≠ cfg.clusters ∧ ∃ pre q post, polls = pre ++ q :: post ∧
      q.late dl ∧ ∀ x ∈ pre, x.done cfg ≠ cfg.clusters := by
  induction polls generalizing done with
  | nil =>
    simp only [service] at h
    split at h
    · cases h
      simp
    · cases h
  | cons q qs ih =>
    simp only [service] at h
    split at h
    · rename_i hdone
      cases h
      simp [hdone]
    · rename_i hdone
      split at h
      · rename_i hlate
        cases h
        simp only [true_iff]
        exact ⟨hdone, [], q, qs, rfl, hlate, by simp⟩
      · rename_i hlate
        rw [ih h]
        constructor
        · rintro ⟨hq, pre, x, post, rfl, hx, hpre⟩
          refine ⟨hdone, q :: pre, x, post, rfl, hx, ?_⟩
          exact List.forall_mem_cons.mpr ⟨hq, hpre⟩
        · rintro ⟨-, pre, x, post, heq, hx, hpre⟩
          cases pre with
          | nil =>
            -- the late poll is not this one
            obtain ⟨rfl, -⟩ := List.cons.inj heq
            exact absurd hx hlate
          | cons y pre =>
            obtain ⟨rfl, rfl⟩ := List.cons.inj heq
            obtain ⟨hq, hpre⟩ := List.forall_mem_cons.mp hpre
            exact ⟨hq, pre, x, post, rfl, hx, hpre⟩

theorem service_timed_out {timed_out : Bool}
    (h : service cfg (deadline b cfg p.start_time) 0 p.polls = some timed_out) :
    timed_out = true ↔ TimedOut b cfg p := by
  rw [service_eq h, TimedOut]
  exact and_congr_left (fun _ => ne_comm)

/-- After a timeout every round clears `retVal`. -/
theorem collect_timed_out {retVal v : BitVec 32} {ids : List Nat} (hids : ids ≠ [])
    (h : collect true p retVal ids = some v) : v = 0 := by
  induction ids generalizing retVal with
  | nil => exact absurd rfl hids
  | cons id ids ih =>
    simp only [collect, if_true] at h
    cases ids with
    | nil =>
      cases h
      rfl
    | cons id' ids => exact ih (List.cons_ne_nil _ _) h

/-- Without a timeout only the word of the last cluster is left. -/
theorem collect_eq {retVal v : BitVec 32} {ids : List Nat}
    (h : collect false p retVal ids = some v) :
    ∃ ws, words p ids = some ws ∧ ws.length = ids.length ∧
      v = (ws.getLast?.map (fun w : BitVec 32 => w >>> 1)).getD retVal := by
  induction ids generalizing retVal with
  | nil =>
    cases h
    exact ⟨[], rfl, rfl, rfl⟩
  | cons id ids ih =>
    obtain ⟨w, hw, h⟩ := Option.bind_eq_some_iff.mp h
    obtain ⟨ws, hws, hlen, rfl⟩ := ih h
    refine ⟨w :: ws, ?_, by simp [hlen], ?_⟩
    · unfold words at hws ⊢
      simp [hw, hws]
    · cases ws with
      | nil => rfl
      | cons w' ws =>
        obtain ⟨l, hl⟩ := Option.isSome_iff_exists.mp
          (show (w' :: ws).getLast?.isSome by simp)
        rw [List.getLast?_cons_cons, hl]
        rfl

/-- One pass that returns: its value is a sound verdict exactly under the
    condition. -/
theorem pass_sound_iff {retVal v : BitVec 32} (h : pass b cfg retVal p = some (.returns v)) :
    (v = 0 → Passed b cfg p) ↔ HoldsWhen b cfg p := by
  unfold pass at h
  split at h
  · -- `return -1` from the configuration
    rename_i hsetup
    cases h
    simp [HoldsWhen, hsetup]
  · cases h
  · rename_i hsetup
    obtain ⟨timed_out, hservice, h⟩ := Option.bind_eq_some_iff.mp h
    obtain ⟨r, hcollect, h⟩ := Option.bind_eq_some_iff.mp h
    have htimed := service_timed_out hservice
    split at h
    · rename_i hbreaks
      cases h
      cases timed_out with
      | true =>
        -- the timeout is lost: the loop has cleared `retVal`
        have hlate : TimedOut b cfg p := htimed.mp rfl
        have hids : List.range cfg.clusters ≠ [] := by
          simpa using hlate.1
        have hzero := collect_timed_out hids hcollect
        simp [Passed, HoldsWhen, hsetup, hbreaks, hlate, hzero]
      | false =>
        have hintime : ¬ TimedOut b cfg p := fun hlate => by simpa using htimed.mpr hlate
        obtain ⟨ws, hws, hlen, rfl⟩ := collect_eq hcollect
        rw [List.length_range] at hlen
        simp only [Passed, HoldsWhen, hsetup, hbreaks, hintime, hws, hlen, true_implies,
          not_false_eq_true, true_and, Option.some.injEq, forall_eq', exists_eq_left']
        cases hlast : ws.getLast? with
        | none =>
          rw [List.getLast?_eq_none_iff] at hlast
          simp [hlast]
        | some w => simp
    · rename_i hbreaks
      split at h
      · cases h
        simp [HoldsWhen, hbreaks]
      · cases h

/-- Whatever the earlier passes have left in `retVal`, the pass that
    returns decides. -/
theorem testLoop_sound_iff {retVal value : BitVec 32} {run : List Pass}
    (h : testLoop b cfg retVal run = some (value, p)) :
    (value = 0 → Passed b cfg p) ↔ HoldsWhen b cfg p := by
  induction run generalizing retVal with
  | nil => cases h
  | cons q run ih =>
    obtain ⟨e, hpass, h⟩ := Option.bind_eq_some_iff.mp h
    cases e with
    | returns value =>
      cases h
      exact pass_sound_iff hpass
    | loops retVal => exact ih h

/-- `test_cluster` returns a sound verdict if and only if the pass that
    decides it meets the condition. -/
theorem test_cluster_sound_iff (b : Platform) (cfg : TestClusterCfg) (run : List Pass)
    (value : BitVec 32) (p : Pass) (h : test_cluster b cfg run = some (value, p)) :
    (value = 0 → Passed b cfg p) ↔ HoldsWhen b cfg p :=
  testLoop_sound_iff h

/-- A pass in which cluster `id` returns the word `word id`, at time zero,
    and all clusters are found idle at `time`. -/
def idlePass (word : Nat → BitVec 32) (time : BitVec 32) : Pass where
  repetitionsRead := true
  scratch3 := 0
  frequency := none
  configure_fll := id
  start_time := { low := 0, high := 0 }
  polls := [{ busy := fun _ => 0, current_time := { low := time, high := 0 } }]
  returnReg := fun id => [0, word id, word id]
  answer := none

/-- Two clusters with a timeout of one tick. -/
def twoClusters : TestClusterCfg where
  mode := .automatic
  default_frequency_mhz := 200
  timeout := 1
  clusterIds := [0, 1]

def rtl : Platform where
  asic := false
  rtc_freq := 1000

theorem twoClusters_passed :
    ∃ p, test_cluster rtl twoClusters [idlePass (fun _ => 1) 0] = some (0, p) ∧
      Passed rtl twoClusters p := by
  refine ⟨idlePass (fun _ => 1) 0, rfl, ?_⟩
  refine (test_cluster_sound_iff rtl twoClusters [idlePass (fun _ => 1) 0] 0 _ rfl).mpr ?_ rfl
  intro _ _
  constructor
  · intro hlate
    have hintime : service twoClusters (deadline rtl twoClusters { low := 0, high := 0 }) 0
        (idlePass (fun _ => 1) 0).polls = some false := rfl
    simpa using (service_timed_out (p := idlePass (fun _ => 1) 0) hintime).mpr hlate
  · intro ws hws _
    have hwords : words (idlePass (fun _ => 1) 0) (List.range twoClusters.clusters) =
        some [1, 1] := rfl
    rw [hwords, Option.some.injEq] at hws
    subst hws
    simp

/-- Zero is returned for a test that has timed out, and for one whose
    first cluster has failed. -/
theorem twoClusters_failed :
    (∃ p, test_cluster rtl twoClusters [idlePass (fun _ => 1) 2] = some (0, p) ∧
      ¬ Passed rtl twoClusters p) ∧
    (∃ p, test_cluster rtl twoClusters [idlePass (fun id => if id = 0 then 3 else 1) 0] =
      some (0, p) ∧ ¬ Passed rtl twoClusters p) := by
  constructor
  · refine ⟨_, rfl, fun hpassed => hpassed.1 ?_⟩
    exact ⟨by decide, [], _, [], rfl, by decide, by simp⟩
  · refine ⟨_, rfl, ?_⟩
    rintro ⟨-, ws, hws, -, hall⟩
    have hwords : words (idlePass (fun id => if id = 0 then 3 else 1) 0)
        (List.range twoClusters.clusters) = some [3, 1] := rfl
    rw [hwords, Option.some.injEq] at hws
    subst hws
    exact absurd (hall 3 (by decide)) (by decide)

end TestCluster
