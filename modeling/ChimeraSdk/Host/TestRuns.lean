import ChimeraSdk.Host.TestCluster

/-! # How Often test_cluster Runs Its Body

    The loop of `test_cluster` has no condition of its own; the body leaves
    it by `break` or `return`.  Outside interactive mode a test is meant to
    run once.  On the ASIC one path goes back to the start of the body: a
    frequency out of range is reported and answered by `continue`, in
    every mode. -/

namespace TestCluster

/-! ## Section 1: Entering the body -/

/-- The value of `retVal` with which the loop starts over. -/
def PassEnd.again : PassEnd → Option (BitVec 32)
  | .returns _ => none
  | .loops retVal => some retVal

/-- `retVal` when the body is entered with `n` passes behind it, and `none`
    when the loop does not get that far.  Pass `i` reads `run i`. -/
def atEntry (b : Platform) (cfg : TestClusterCfg) (run : Nat → Pass) : Nat → Option (BitVec 32)
  | 0 => some 0
  | n + 1 => (atEntry b cfg run n).bind fun retVal =>
      (pass b cfg retVal (run n)).bind PassEnd.again

/-- The frequency is one that the clock can be configured to, or -1, which
    leaves the clock alone. -/
def FrequencyAccepted (cfg : TestClusterCfg) (p : Pass) : Prop :=
  ∃ mhz, target_freq_mhz cfg p = some mhz ∧ (mhz = -1 ∨ 10 ≤ mhz.toInt ∧ mhz.toInt ≤ 1000)

/-- The body runs once at most, and when its waits return so does
    `test_cluster`. -/
structure RunsOnce (b : Platform) (cfg : TestClusterCfg) (run : Nat → Pass) : Prop where
  once : ∀ n, (atEntry b cfg run n).isSome → n = 0
  returns : (pass b cfg 0 (run 0)).isSome →
    ∃ value, test_cluster b cfg [run 0] = some (value, run 0)

variable {b : Platform} {cfg : TestClusterCfg} {p : Pass} {run : Nat → Pass}

theorem atEntry_succ (n : Nat) : atEntry b cfg run (n + 1) =
    (atEntry b cfg run n).bind fun retVal => (pass b cfg retVal (run n)).bind PassEnd.again :=
  rfl

/-- The passes before an entry start the loop over, one after the other. -/
theorem testLoop_skip {n : Nat} {retVal : BitVec 32} (ps : List Pass)
    (h : atEntry b cfg run n = some retVal) :
    testLoop b cfg 0 ((List.range n).map run ++ ps) = testLoop b cfg retVal ps := by
  induction n generalizing retVal ps with
  | zero =>
    cases h
    rfl
  | succ n ih =>
    rw [atEntry_succ] at h
    obtain ⟨r, hr, h⟩ := Option.bind_eq_some_iff.mp h
    obtain ⟨e, he, hagain⟩ := Option.bind_eq_some_iff.mp h
    rw [List.range_succ, List.map_append, List.append_assoc, ih _ hr]
    cases e with
    | returns value => cases hagain
    | loops r' =>
      cases hagain
      show (pass b cfg r (run n)).bind _ = _
      rw [he]
      rfl

/-- The pass that returns ends the run of `test_cluster`. -/
theorem test_cluster_of_atEntry {n : Nat} {retVal value : BitVec 32}
    (hentry : atEntry b cfg run n = some retVal)
    (hpass : pass b cfg retVal (run n) = some (.returns value)) :
    test_cluster b cfg ((List.range (n + 1)).map run) = some (value, run n) := by
  rw [List.range_succ, List.map_append, test_cluster, testLoop_skip _ hentry]
  show (pass b cfg retVal (run n)).bind _ = _
  rw [hpass]
  rfl

/-! ## Section 2: One pass outside interactive mode -/

/-- A signed comparison with the bounds. -/
theorem outOfRange_iff (mhz : BitVec 32) :
    (mhz.slt 10 || BitVec.slt 1000 mhz) = true ↔ ¬ (10 ≤ mhz.toInt ∧ mhz.toInt ≤ 1000) := by
  have hlow : (10 : BitVec 32).toInt = 10 := rfl
  have hhigh : (1000 : BitVec 32).toInt = 1000 := rfl
  rw [Bool.or_eq_true, BitVec.slt_iff_toInt_lt, BitVec.slt_iff_toInt_lt, hlow, hhigh]
  omega

/-- The pass starts over before it has done anything exactly when the
    frequency is not accepted. -/
theorem setup_retry_iff (hasic : b.asic = true) (hmode : cfg.mode ≠ .interactive) :
    setup b cfg p = .retry ↔ ¬ FrequencyAccepted cfg p := by
  obtain ⟨mhz, hmhz⟩ : ∃ mhz, target_freq_mhz cfg p = some mhz := by
    unfold target_freq_mhz
    cases hm : cfg.mode with
    | automatic => exact ⟨_, rfl⟩
    | dutctl => exact ⟨_, rfl⟩
    | interactive => exact absurd hm hmode
  have haccepted : FrequencyAccepted cfg p ↔
      mhz = -1 ∨ 10 ≤ mhz.toInt ∧ mhz.toInt ≤ 1000 := by
    simp [FrequencyAccepted, hmhz]
  have hsetup : setup b cfg p = configureFrequency cfg p := by
    unfold setup
    rw [if_neg (fun h => hmode h.1), if_pos hasic]
  rw [hsetup, haccepted, configureFrequency, hmhz]
  show (if mhz = -1 then Setup.ready
    else if mhz.slt 10 || BitVec.slt 1000 mhz then .retry
    else if p.configure_fll (mhz * 1000000) = 0 then .failed else .ready) = .retry ↔ _
  by_cases hskip : mhz = -1
  · rw [if_pos hskip]
    exact ⟨nofun, fun hnot => absurd (.inl hskip) hnot⟩
  · rw [if_neg hskip]
    by_cases hout : (mhz.slt 10 || BitVec.slt 1000 mhz) = true
    · rw [if_pos hout]
      exact ⟨fun _ hacc => (outOfRange_iff mhz).mp hout (hacc.resolve_left hskip), fun _ => rfl⟩
    · have hrange : 10 ≤ mhz.toInt ∧ mhz.toInt ≤ 1000 := by
        by_contra hnot
        exact hout ((outOfRange_iff mhz).mpr hnot)
      rw [if_neg hout]
      constructor
      · intro hretry
        -- `configure_fll` ends the pass or lets it go on
        by_cases hfll : p.configure_fll (mhz * 1000000) = 0
        · rw [if_pos hfll] at hretry
          cases hretry
        · rw [if_neg hfll] at hretry
          cases hretry
      · intro hnot
        exact absurd (.inr hrange) hnot

/-- Outside interactive mode a pass that runs the test leaves the loop. -/
theorem breaks_of_mode (hmode : cfg.mode ≠ .interactive) : breaks cfg p = true := by
  simp [breaks, hmode]

/-- A pass starts over if and only if its frequency is not accepted. -/
theorem pass_again_iff (hasic : b.asic = true) (hmode : cfg.mode ≠ .interactive)
    (retVal : BitVec 32) :
    ((pass b cfg retVal p).bind PassEnd.again).isSome ↔ ¬ FrequencyAccepted cfg p := by
  rw [← setup_retry_iff hasic hmode]
  unfold pass
  cases hsetup : setup b cfg p with
  | retry => simp [PassEnd.again]
  | failed => simp [PassEnd.again]
  | ready =>
    constructor
    · intro hagain
      obtain ⟨r, hr⟩ := Option.isSome_iff_exists.mp hagain
      obtain ⟨e, he, hr⟩ := Option.bind_eq_some_iff.mp hr
      obtain ⟨timed_out, -, he⟩ := Option.bind_eq_some_iff.mp he
      obtain ⟨r', -, he⟩ := Option.bind_eq_some_iff.mp he
      rw [if_pos (breaks_of_mode hmode)] at he
      cases he
      cases hr
    · intro h
      cases h

/-! ## Section 3: Whole runs -/

/-- **How often the body runs**: once, and once more for every leading pass
    whose frequency is not accepted. -/
theorem entered_iff (hasic : b.asic = true) (hmode : cfg.mode ≠ .interactive) (n : Nat) :
    (atEntry b cfg run n).isSome ↔ ∀ i < n, ¬ FrequencyAccepted cfg (run i) := by
  induction n with
  | zero =>
    constructor
    · intro _ i hi
      exact absurd hi (Nat.not_lt_zero i)
    · intro _
      rfl
  | succ n ih =>
    rw [atEntry_succ]
    constructor
    · intro h i hi
      obtain ⟨r, hr⟩ := Option.isSome_iff_exists.mp h
      obtain ⟨retVal, hentry, hagain⟩ := Option.bind_eq_some_iff.mp hr
      -- the last pass has been rejected, as have those before it
      by_cases hlast : i = n
      · rw [hlast]
        exact (pass_again_iff hasic hmode retVal).mp (hagain ▸ rfl)
      · exact ih.mp (hentry ▸ rfl) i (by omega)
    · intro h
      obtain ⟨retVal, hentry⟩ := Option.isSome_iff_exists.mp
        (ih.mpr fun i hi => h i (Nat.lt_succ_of_lt hi))
      rw [hentry, Option.bind_some]
      exact (pass_again_iff hasic hmode retVal).mpr (h n (Nat.lt_succ_self n))

/-- In automatic mode the frequency is that of the configuration in every
    pass: when it is not accepted the loop never ends. -/
theorem automatic_forever (hasic : b.asic = true) (hmode : cfg.mode = .automatic)
    (hout : ¬ FrequencyAccepted cfg (run 0)) (n : Nat) : (atEntry b cfg run n).isSome := by
  refine (entered_iff hasic (by rw [hmode]; decide) n).mpr fun i _ hacc => hout ?_
  unfold FrequencyAccepted target_freq_mhz at hacc ⊢
  rw [hmode] at hacc ⊢
  exact hacc

/-- **A test runs once** if and only if the frequency that its first pass
    reads is -1 or in range. -/
theorem test_cluster_once_iff (b : Platform) (cfg : TestClusterCfg) (run : Nat → Pass)
    (hasic : b.asic = true) (hmode : cfg.mode ≠ .interactive) :
    RunsOnce b cfg run ↔ FrequencyAccepted cfg (run 0) := by
  have hfirst : ((pass b cfg 0 (run 0)).bind PassEnd.again).isSome ↔
      ¬ FrequencyAccepted cfg (run 0) := pass_again_iff hasic hmode 0
  constructor
  · intro h
    by_contra hout
    have hone : 1 = 0 := h.once 1 (hfirst.mpr hout)
    cases hone
  · intro hacc
    constructor
    · intro n hn
      by_contra hpos
      exact (entered_iff hasic hmode n).mp hn 0 (Nat.pos_of_ne_zero hpos) hacc
    · intro hreturns
      obtain ⟨e, he⟩ := Option.isSome_iff_exists.mp hreturns
      -- the first pass has not gone round, so it has returned
      cases e with
      | returns value =>
        have hentry : atEntry b cfg run 0 = some 0 := rfl
        exact ⟨value, test_cluster_of_atEntry hentry he⟩
      | loops retVal =>
        rw [he] at hfirst
        exact absurd hacc (hfirst.mp rfl)

def asicBoard : Platform where
  asic := true
  rtc_freq := 1000

/-- One cluster, tested at a given frequency. -/
def oneCluster (mode : TestMode) (mhz : BitVec 32) : TestClusterCfg where
  mode := mode
  default_frequency_mhz := mhz
  timeout := 1
  clusterIds := [0]

theorem oneCluster_runs_once :
    RunsOnce asicBoard (oneCluster .automatic 200) (fun _ => idlePass (fun _ => 1) 0) :=
  (test_cluster_once_iff asicBoard (oneCluster .automatic 200) (fun _ => idlePass (fun _ => 1) 0)
    rfl (by decide)).mpr ⟨200, rfl, .inr (by decide)⟩

/-- 5 MHz in automatic mode, and the reset value of the scratch register
    in the other: the body is entered a second time. -/
theorem low_frequency_runs_again :
    ¬ RunsOnce asicBoard (oneCluster .automatic 5) (fun _ => idlePass (fun _ => 1) 0) ∧
    ¬ RunsOnce asicBoard (oneCluster .dutctl 200) (fun _ => idlePass (fun _ => 1) 0) := by
  constructor
  · intro h
    exact absurd (h.once 1 rfl) (by decide)
  · intro h
    exact absurd (h.once 1 rfl) (by decide)

end TestCluster
