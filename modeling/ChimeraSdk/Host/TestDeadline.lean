import ChimeraSdk.Host.TestCluster
import ChimeraSdk.Host.ClintTime

/-! # The Deadline of test_cluster

    The configuration of a test gives its timeout in milliseconds.
    `test_cluster` turns it into ticks of the timer and adds them to the
    start time.  The sum is formed as in the driver of the timer, low word
    first; the number of ticks is formed in 32 bits before the division,
    and this is where it can go wrong. -/

open Clint Clint32

namespace TestCluster

/-! ## Section 1: The configured deadline -/

/-- The ticks of `timeout` milliseconds, in exact arithmetic. -/
def configuredTicks (b : Platform) (cfg : TestClusterCfg) : Nat :=
  b.rtc_freq.toNat * cfg.timeout.toNat / 1000

/-- The deadline is the configured one, and a poll that makes the service
    loop report a timeout is behind it. -/
structure DeadlineConfigured (b : Platform) (cfg : TestClusterCfg) (start_time : ClintMtime) :
    Prop where
  exact : (deadline b cfg start_time).value.toNat =
    start_time.value.toNat + configuredTicks b cfg
  notEarly : ∀ qs q, service cfg (deadline b cfg start_time) 0 qs = none →
    service cfg (deadline b cfg start_time) 0 (qs ++ [q]) = some true →
    start_time.value.toNat + configuredTicks b cfg < q.current_time.value.toNat

variable {b : Platform} {cfg : TestClusterCfg} {start_time : ClintMtime}

/-! ## Section 2: What the code computes -/

/-- The deadline is a target of the timer's driver. -/
theorem deadline_eq_ticksTarget : deadline b cfg start_time =
    ticksTarget start_time (b.rtc_freq * cfg.timeout / 1000) := by
  unfold deadline ticksTarget
  by_cases hwrap : start_time.low + b.rtc_freq * cfg.timeout / 1000 < start_time.low
  · simp only [hwrap, if_true]
  · simp only [hwrap, if_false]

/-- The product is cut to 32 bits, then divided. -/
theorem timeout_ticks_toNat : (b.rtc_freq * cfg.timeout / 1000).toNat =
    b.rtc_freq.toNat * cfg.timeout.toNat % 2 ^ 32 / 1000 := by
  rw [BitVec.toNat_udiv, BitVec.toNat_mul]
  rfl

theorem timeout_ticks_le :
    (b.rtc_freq * cfg.timeout / 1000).toNat ≤ configuredTicks b cfg := by
  rw [timeout_ticks_toNat]
  exact Nat.div_le_div_right (Nat.mod_le _ _)

/-- A product that is cut loses at least 2^32, which is more than a
    thousand ticks. -/
theorem timeout_ticks_eq_iff : (b.rtc_freq * cfg.timeout / 1000).toNat = configuredTicks b cfg ↔
    b.rtc_freq.toNat * cfg.timeout.toNat < 2 ^ 32 := by
  rw [timeout_ticks_toNat, configuredTicks]
  constructor
  · intro heq
    by_contra hlarge
    have hcut := Nat.mod_lt (b.rtc_freq.toNat * cfg.timeout.toNat) (Nat.two_pow_pos 32)
    have hsplit := Nat.mod_add_div (b.rtc_freq.toNat * cfg.timeout.toNat) (2 ^ 32)
    have hquot : 1 ≤ b.rtc_freq.toNat * cfg.timeout.toNat / 2 ^ 32 :=
      Nat.div_pos (Nat.not_lt.mp hlarge) (Nat.two_pow_pos 32)
    omega
  · intro hsmall
    rw [Nat.mod_eq_of_lt hsmall]

/-- The deadline as a number, when the configured one fits 64 bits. -/
theorem deadline_toNat (hsum : start_time.value.toNat + configuredTicks b cfg < 2 ^ 64) :
    (deadline b cfg start_time).value.toNat =
      start_time.value.toNat + (b.rtc_freq * cfg.timeout / 1000).toNat := by
  rw [deadline_eq_ticksTarget]
  apply ticksTarget_toNat
  have hle : (b.rtc_freq * cfg.timeout / 1000).toNat ≤ configuredTicks b cfg := timeout_ticks_le
  omega

/-! ## Section 3: When it is the configured one -/

/-- The poll that makes the loop report a timeout is late. -/
theorem late_of_service {dl : ClintMtime} {done : Nat} {qs : List Poll} {q : Poll}
    (hmore : service cfg dl done qs = none) (hout : service cfg dl done (qs ++ [q]) = some true) :
    q.late dl = true := by
  induction qs generalizing done with
  | nil =>
    by_cases hdone : done = cfg.clusters
    · rw [service, if_pos hdone] at hmore
      cases hmore
    · by_cases hlate : q.late dl = true
      · exact hlate
      · -- a poll in time ends the loop without a timeout or not at all
        rw [List.nil_append, service, if_neg hdone, if_neg hlate, service] at hout
        split at hout
        · cases hout
        · cases hout
  | cons p qs ih =>
    rw [service] at hmore
    rw [List.cons_append, service] at hout
    by_cases hdone : done = cfg.clusters
    · rw [if_pos hdone] at hmore
      cases hmore
    · rw [if_neg hdone] at hmore hout
      by_cases hlate : p.late dl = true
      · rw [if_pos hlate] at hmore
        cases hmore
      · rw [if_neg hlate] at hmore hout
        exact ih hmore hout

/-- **The deadline is the configured one** if and only if the product of
    the frequency and the milliseconds fits 32 bits. -/
theorem deadline_configured_iff (b : Platform) (cfg : TestClusterCfg) (start_time : ClintMtime)
    (hsum : start_time.value.toNat + configuredTicks b cfg < 2 ^ 64) :
    DeadlineConfigured b cfg start_time ↔ b.rtc_freq.toNat * cfg.timeout.toNat < 2 ^ 32 := by
  have hvalue := deadline_toNat hsum
  rw [← timeout_ticks_eq_iff]
  constructor
  · intro h
    have hexact := h.exact
    omega
  · intro hticks
    rw [hticks] at hvalue
    refine ⟨hvalue, fun qs q hmore hout => ?_⟩
    have hlate : (deadline b cfg start_time).value < q.current_time.value :=
      (less_than_iff _ _).mp (late_of_service hmore hout)
    rw [BitVec.lt_def, hvalue] at hlate
    exact hlate

/-- A timer of 32768 Hz. -/
def rtc32k : Platform where
  asic := false
  rtc_freq := 32768

/-- One cluster with a timeout in milliseconds. -/
def oneClusterFor (timeout : BitVec 32) : TestClusterCfg where
  mode := .automatic
  default_frequency_mhz := 200
  timeout := timeout
  clusterIds := [0]

/-- A minute, across the end of the low word. -/
theorem oneMinute_configured :
    DeadlineConfigured rtc32k (oneClusterFor 60000) { low := 0xffffffff, high := 0 } :=
  (deadline_configured_iff rtc32k (oneClusterFor 60000) { low := 0xffffffff, high := 0 }
    (by decide)).mpr (by decide)

/-- 131072 milliseconds are 4294967 ticks, but the product is 2^32: the
    deadline is the start time, and the next tick is reported as a
    timeout. -/
theorem twoMinutes_times_out_at_once :
    configuredTicks rtc32k (oneClusterFor 131072) = 4294967 ∧
    deadline rtc32k (oneClusterFor 131072) { low := 0, high := 0 } = { low := 0, high := 0 } ∧
    service (oneClusterFor 131072)
      (deadline rtc32k (oneClusterFor 131072) { low := 0, high := 0 }) 0
      [{ busy := fun _ => 1, current_time := { low := 1, high := 0 } }] = some true ∧
    ¬ DeadlineConfigured rtc32k (oneClusterFor 131072) { low := 0, high := 0 } := by
  refine ⟨by decide, by decide, by decide, fun h => ?_⟩
  exact absurd h.exact (by decide)

end TestCluster
