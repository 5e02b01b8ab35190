import ChimeraSdk.Framework.System
import ChimeraSdk.Framework.Log
import ChimeraSdk.Framework.ByteMemory
import ChimeraSdk.Target.SocAddrMap

/-! # Return Values of Clusters

    A cluster hands its exit code to the host through a register of the
    SoC control block: `snrt_exit` stores the code, and
    `wait_snitchCluster_return` polls the register until it is not zero,
    reads it and clears it.

    The host takes the address of the register from a table.  The device
    computes it, and adds the index of the cluster to a byte offset. -/

open LTS ByteMemory Soc

namespace ReturnChannel

/-! ## Section 1: Registers -/

def SOC_CTRL_BASE : Nat := 0x30001000

/-- `CHIMERA_SNITCH_CLUSTER_x_RETURN_REG_OFFSET` -/
def RETURN_REG_OFFSET : ClusterId → Nat := ![0xc, 0x10, 0x14, 0x18, 0x1c]

/-- The address `wait_snitchCluster_return` selects. -/
def snitchReturnAddr (clusterId : ClusterId) : Nat := SOC_CTRL_BASE + RETURN_REG_OFFSET clusterId

/-- The address `snrt_exit` computes. -/
def exitAddr (cluster_idx : ClusterId) : Nat := SOC_CTRL_BASE + (RETURN_REG_OFFSET 0 + cluster_idx)

/-- The word of a return register. -/
def readReg (mem : Mem) (c : ClusterId) : BitVec 32 :=
  BitVec.ofNat 32 (load mem (snitchReturnAddr c) 4)

/-- A store to a 32-bit register. -/
def writeWord (mem : Mem) (a : Nat) (v : BitVec 32) : Mem := store mem a v.toNat 4

theorem readReg_writeWord_self (mem : Mem) (c : ClusterId) (v : BitVec 32) :
    readReg (writeWord mem (snitchReturnAddr c) v) c = v := by
  unfold readReg writeWord
  rw [load_store_self (v.isLt.trans_eq (by decide)), BitVec.ofNat_toNat, BitVec.setWidth_eq]

/-- Return registers of different clusters share no byte. -/
theorem snitchReturnAddr_apart {c c' : ClusterId} (hne : c' ≠ c) :
    snitchReturnAddr c' + 4 ≤ snitchReturnAddr c ∨
      snitchReturnAddr c + 4 ≤ snitchReturnAddr c' := by
  revert c c'
  decide

theorem readReg_writeWord_of_ne (mem : Mem) {c c' : ClusterId} (v : BitVec 32) (hne : c' ≠ c) :
    readReg (writeWord mem (snitchReturnAddr c) v) c' = readReg mem c' := by
  unfold readReg writeWord
  rw [load_store_of_disjoint (snitchReturnAddr_apart hne)]

/-- The device finds its register exactly when its index is zero. -/
theorem exitAddr_eq_iff (c : ClusterId) : exitAddr c = snitchReturnAddr c ↔ c = 0 := by
  revert c
  decide

/-! ## Section 2: The parties -/

/-- The program points of `wait_snitchCluster_return`. -/
inductive HostPc where
  | idle
  | poll (clusterId : ClusterId)
  | fetch (clusterId : ClusterId)
  | clear (clusterId : ClusterId) (retVal : BitVec 32)
  deriving DecidableEq, Repr

/-- The registers and the host, with what the protocol is about: the codes
    that have been passed to `snrt_exit` and not been taken, and the logs
    of the codes passed and of the values returned. -/
structure State where
  mem      : Mem
  host     : HostPc
  pending  : ClusterId → Option (BitVec 32)
  exited   : List (ClusterId × BitVec 32)
  returned : List (ClusterId × BitVec 32)

inductive Action where
  | exit (cluster_idx : ClusterId) (exit_code : BitVec 32)
  | call (clusterId : ClusterId)
  | host
  deriving DecidableEq, Repr

namespace State

def snrt_exit (s : State) (cluster_idx : ClusterId) (exit_code : BitVec 32) : State :=
  { s with
    mem := writeWord s.mem (exitAddr cluster_idx) exit_code
    pending := Function.update s.pending cluster_idx (some exit_code)
    exited := s.exited ++ [(cluster_idx, exit_code)] }

/-- One access of `wait_snitchCluster_return`. -/
def wait_snitchCluster_return (s : State) : Option State :=
  match s.host with
  | .idle => none
  | .poll c => if readReg s.mem c = 0 then some s else some { s with host := .fetch c }
  | .fetch c => some { s with host := .clear c (readReg s.mem c) }
  | .clear c retVal =>
      some { s with
        mem := writeWord s.mem (snitchReturnAddr c) 0
        host := .idle
        pending := Function.update s.pending c none
        returned := s.returned ++ [(c, retVal)] }

end State

/-- The clusters in `clusters` exit with any code but zero, each again only
    after its code has been taken; the host waits for any cluster at any
    time. -/
def channel (clusters : ClusterId → Bool) : System State Action where
  init := fun s => (∀ c, readReg s.mem c = 0) ∧ s.host = .idle ∧ (∀ c, s.pending c = none) ∧
    s.exited = [] ∧ s.returned = []
  next := fun s a =>
    match a with
    | .exit c code =>
        if clusters c = true ∧ code ≠ 0 ∧ s.pending c = none then some (s.snrt_exit c code)
        else none
    | .call c => if s.host = .idle then some { s with host := .poll c } else none
    | .host => s.wait_snitchCluster_return

/-- What the channel is for: every value returned for a cluster is the
    code it passed, one for one and in order; no exit that may come next
    changes the return register of another cluster; and a call that polls
    for a code which is pending returns that code within three steps of
    the host, whatever the clusters do between them. -/
structure Faithful (clusters : ClusterId → Bool) (s : State) : Prop where
  matched : ∀ c, entriesOf c s.returned ++ (s.pending c).toList = entriesOf c s.exited
  apart : ∀ c code s', (channel clusters).next s (.exit c code) = some s' →
    ∀ c', c' ≠ c → readReg s'.mem c' = readReg s.mem c'
  moves : s.host ≠ .idle → ∃ s', (channel clusters).next s .host = some s'
  returns : ∀ c code, s.host = .poll c → s.pending c = some code →
    ∀ as s', (channel clusters).exec s as = some s' → 3 ≤ as.count .host →
      s.returned ++ [(c, code)] <+: s'.returned

/-! ## Section 3: Cluster 0 -/

section zero

variable {clusters : ClusterId → Bool} {s s' : State}

/-- **Channel invariant**: a register holds the code that is pending, and
    the host has fetched it when it is about to clear it. -/
structure Inv (s : State) : Prop where
  holds : ∀ c, readReg s.mem c = (s.pending c).getD 0
  nonzero : ∀ c, s.pending c ≠ some 0
  fetching : ∀ c, s.host = .fetch c → s.pending c ≠ none
  fetched : ∀ c retVal, s.host = .clear c retVal → s.pending c = some retVal
  matched : ∀ c, entriesOf c s.returned ++ (s.pending c).toList = entriesOf c s.exited

/-- Posting or clearing a code changes one register and what is pending
    there. -/
theorem holds_update {mem : Mem} {pending : ClusterId → Option (BitVec 32)}
    (h : ∀ c, readReg mem c = (pending c).getD 0) (c₀ : ClusterId) (code : Option (BitVec 32)) :
    ∀ c, readReg (writeWord mem (snitchReturnAddr c₀) (code.getD 0)) c =
      (Function.update pending c₀ code c).getD 0 := by
  rw [Function.forall_update_iff pending (fun c o =>
    readReg (writeWord mem (snitchReturnAddr c₀) (code.getD 0)) c = o.getD 0)]
  constructor
  · exact readReg_writeWord_self mem c₀ _
  · intro c hc
    rw [readReg_writeWord_of_ne mem _ hc]
    exact h c

theorem inv_exit {code : BitVec 32} (h : Inv s) (hcode : code ≠ 0) (hnone : s.pending 0 = none) :
    Inv (s.snrt_exit 0 code) := by
  refine ⟨?_, ?_, ?_, ?_, ?_⟩
  · -- the address computed is the right one
    have hholds := holds_update h.holds 0 (some code)
    rw [← (exitAddr_eq_iff 0).mpr rfl] at hholds
    exact hholds
  · apply (Function.forall_update_iff s.pending (fun _ o => o ≠ some 0)).mpr
    exact ⟨fun heq => hcode (Option.some.inj heq), fun c _ => h.nonzero c⟩
  · apply (Function.forall_update_iff s.pending (fun c o => s.host = .fetch c → o ≠ none)).mpr
    exact ⟨fun _ => Option.some_ne_none code, fun c _ => h.fetching c⟩
  · -- the cluster whose code is being taken does not exit meanwhile
    apply (Function.forall_update_iff s.pending
      (fun c o => ∀ retVal, s.host = .clear c retVal → o = some retVal)).mpr
    refine ⟨?_, fun c _ => h.fetched c⟩
    intro retVal hhost
    have hpending := h.fetched 0 retVal hhost
    rw [hnone] at hpending
    cases hpending
  · apply (Function.forall_update_iff s.pending (fun c o =>
      entriesOf c s.returned ++ o.toList = entriesOf c (s.exited ++ [(0, code)]))).mpr
    constructor
    · have hmatched := h.matched 0
      rw [hnone, Option.toList_none, List.append_nil] at hmatched
      rw [entriesOf_append, entriesOf_self, hmatched, Option.toList_some]
    · intro c hc
      rw [entriesOf_append, entriesOf_ne code (Ne.symm hc), List.append_nil]
      exact h.matched c

/-- A step of the host that writes nothing only has to account for what it
    has read. -/
theorem inv_host (h : Inv s) {host : HostPc}
    (hfetch : ∀ c, host = .fetch c → s.pending c ≠ none)
    (hclear : ∀ c retVal, host = .clear c retVal → s.pending c = some retVal) :
    Inv { s with host := host } :=
  ⟨h.holds, h.nonzero, hfetch, hclear, h.matched⟩

theorem inv_take {c : ClusterId} {retVal : BitVec 32} (h : Inv s)
    (hhost : s.host = .clear c retVal) :
    Inv { s with
      mem := writeWord s.mem (snitchReturnAddr c) 0
      host := .idle
      pending := Function.update s.pending c none
      returned := s.returned ++ [(c, retVal)] } := by
  refine ⟨holds_update h.holds c none, ?_, ?_, ?_, ?_⟩
  · apply (Function.forall_update_iff s.pending (fun _ o => o ≠ some 0)).mpr
    exact ⟨fun heq => (Option.some_ne_none _ heq.symm).elim, fun c' _ => h.nonzero c'⟩
  · intro c' hidle
    cases hidle
  · intro c' v hidle
    cases hidle
  · apply (Function.forall_update_iff s.pending (fun c' o =>
      entriesOf c' (s.returned ++ [(c, retVal)]) ++ o.toList = entriesOf c' s.exited)).mpr
    -- the code taken is the pending one, the last that the cluster has stored
    constructor
    · have hmatched := h.matched c
      rw [h.fetched c retVal hhost, Option.toList_some] at hmatched
      rw [entriesOf_append, entriesOf_self, Option.toList_none, List.append_nil]
      exact hmatched
    · intro c' hc
      rw [entriesOf_append, entriesOf_ne retVal (Ne.symm hc), List.append_nil]
      exact h.matched c'

theorem inv_wait (h : Inv s) (hn : s.wait_snitchCluster_return = some s') : Inv s' := by
  unfold State.wait_snitchCluster_return at hn
  cases hhost : s.host with
  | idle => rw [hhost] at hn; cases hn
  | poll c =>
    rw [hhost] at hn
    simp only at hn
    split at hn
    · cases hn
      exact h
    · -- a register that is not zero holds a pending code
      rename_i hread
      cases hn
      apply inv_host h
      · intro c' hc hnone
        cases hc
        rw [h.holds c, hnone] at hread
        exact hread rfl
      · intro c' v hc
        cases hc
  -- a code is still pending when it is fetched
  | fetch c =>
    rw [hhost] at hn
    cases hn
    apply inv_host h
    · intro c' hc
      cases hc
    · intro c' v hc
      cases hc
      obtain ⟨code, hcode⟩ := Option.ne_none_iff_exists'.mp (h.fetching c hhost)
      rw [h.holds c, hcode]
      rfl
  | clear c retVal =>
    rw [hhost] at hn
    cases hn
    exact inv_take h hhost

/-- What an enabled exit is. -/
theorem next_exit {c : ClusterId} {code : BitVec 32}
    (hn : (channel clusters).next s (.exit c code) = some s') :
    clusters c = true ∧ code ≠ 0 ∧ s.pending c = none ∧ s' = s.snrt_exit c code := by
  simp only [channel] at hn
  split at hn
  · rename_i hok
    cases hn
    exact ⟨hok.1, hok.2.1, hok.2.2, rfl⟩
  · cases hn

theorem inv_next (hzero : ∀ c, clusters c = true → c = 0) (h : Inv s) {a : Action}
    (hn : (channel clusters).next s a = some s') : Inv s' := by
  cases a with
  | exit c code =>
    obtain ⟨hc, hcode, hnone, rfl⟩ := next_exit hn
    obtain rfl := hzero c hc
    exact inv_exit h hcode hnone
  | call c =>
    simp only [channel] at hn
    split at hn
    · cases hn
      exact inv_host h (fun _ hc => by cases hc) (fun _ _ hc => by cases hc)
    · cases hn
  | host => exact inv_wait h hn

theorem inv_reachable (hzero : ∀ c, clusters c = true → c = 0)
    (h : (channel clusters).Reachable s) : Inv s := by
  apply h.invariant
  · intro s hinit
    obtain ⟨hreg, hidle, hnone, hexited, hreturned⟩ := hinit
    refine ⟨?_, ?_, ?_, ?_, ?_⟩
    · intro c
      rw [hreg c, hnone c]
      rfl
    · intro c
      rw [hnone c]
      exact fun heq => by cases heq
    · intro c hc
      rw [hidle] at hc
      cases hc
    · intro c retVal hc
      rw [hidle] at hc
      cases hc
    · intro c
      rw [hnone c, hexited, hreturned]
      rfl
  · intro s a s' hs hn
    exact inv_next hzero hs hn

/-- A call under way is never stuck: it polls, or it moves on. -/
theorem host_moves (clusters : ClusterId → Bool) (hbusy : s.host ≠ .idle) :
    ∃ s', (channel clusters).next s .host = some s' := by
  show ∃ s', s.wait_snitchCluster_return = some s'
  unfold State.wait_snitchCluster_return
  cases hhost : s.host with
  | idle => exact absurd hhost hbusy
  | poll c =>
    by_cases hread : readReg s.mem c = 0
    · exact ⟨_, if_pos hread⟩
    · exact ⟨_, if_neg hread⟩
  | fetch c => exact ⟨_, rfl⟩
  | clear c retVal => exact ⟨_, rfl⟩

/-- The host is `n` steps away from returning `code` for cluster `c`, where
    `log` is what has been returned before. -/
inductive Returning (c : ClusterId) (code : BitVec 32) (log : List (ClusterId × BitVec 32))
    (s : State) : Nat → Prop where
  | poll : s.host = .poll c → s.pending c = some code → s.returned = log →
      Returning c code log s 3
  | fetch : s.host = .fetch c → s.pending c = some code → s.returned = log →
      Returning c code log s 2
  | clear : s.host = .clear c code → s.returned = log → Returning c code log s 1
  | done : log ++ [(c, code)] <+: s.returned → Returning c code log s 0

section returning

variable {c : ClusterId} {code : BitVec 32} {log : List (ClusterId × BitVec 32)} {n : Nat}

theorem Returning.after_host (h : Returning c code log s n) (hinv : Inv s)
    (hn : s.wait_snitchCluster_return = some s') : Returning c code log s' (n - 1) := by
  unfold State.wait_snitchCluster_return at hn
  cases h with
  | poll hhost hpending hlog =>
    -- the code that is pending is not zero, so the poll ends
    have hread : readReg s.mem c ≠ 0 := by
      rw [hinv.holds c, hpending]
      exact fun hzero => hinv.nonzero c (hpending.trans (congrArg some hzero))
    rw [hhost] at hn
    simp only [if_neg hread] at hn
    cases hn
    exact .fetch rfl hpending hlog
  | fetch hhost hpending hlog =>
    have hread : readReg s.mem c = code := by
      rw [hinv.holds c, hpending]
      rfl
    rw [hhost] at hn
    simp only [hread] at hn
    cases hn
    exact .clear rfl hlog
  | clear hhost hlog =>
    rw [hhost] at hn
    cases hn
    exact .done (hlog ▸ List.prefix_refl _)
  | done hlog =>
    -- whatever is returned later stands behind it
    apply Returning.done
    split at hn
    · cases hn
    · split at hn
      · cases hn
        exact hlog
      · cases hn
        exact hlog
    · cases hn
      exact hlog
    · cases hn
      exact hlog.trans (List.prefix_append _ _)

/-- A cluster whose code is pending does not exit again, so what the other
    clusters do leaves the host as far as it was. -/
theorem Returning.after_exit (h : Returning c code log s n) {c' : ClusterId} {code' : BitVec 32}
    (hnone : s.pending c' = none) : Returning c code log (s.snrt_exit c' code') n := by
  have hkeep : s.pending c = some code → (s.snrt_exit c' code').pending c = some code := by
    intro hpending
    have hne : c ≠ c' := by
      rintro rfl
      rw [hnone] at hpending
      cases hpending
    exact (Function.update_of_ne hne _ _).trans hpending
  cases h with
  | poll hhost hpending hlog => exact .poll hhost (hkeep hpending) hlog
  | fetch hhost hpending hlog => exact .fetch hhost (hkeep hpending) hlog
  | clear hhost hlog => exact .clear hhost hlog
  | done hlog => exact .done hlog

theorem Returning.after_call (h : Returning c code log s n) (hidle : s.host = .idle)
    (c' : ClusterId) : Returning c code log { s with host := .poll c' } n := by
  cases h with
  | poll hhost => exact absurd (hidle.symm.trans hhost) HostPc.noConfusion
  | fetch hhost => exact absurd (hidle.symm.trans hhost) HostPc.noConfusion
  | clear hhost => exact absurd (hidle.symm.trans hhost) HostPc.noConfusion
  | done hlog => exact .done hlog

/-- **Step lemma**: every step of the host brings it one step closer, and
    no other step sets it back. -/
theorem Returning.next (h : Returning c code log s n) (hinv : Inv s) {a : Action}
    (hn : (channel clusters).next s a = some s') :
    Returning c code log s' (n - [a].count .host) := by
  cases a with
  | exit c' code' =>
    obtain ⟨_, _, hnone, rfl⟩ := next_exit hn
    exact h.after_exit hnone
  | call c' =>
    simp only [channel] at hn
    split at hn
    · rename_i hidle
      cases hn
      exact h.after_call hidle c'
    · cases hn
  | host => exact h.after_host hinv hn

/-- **Run lemma**: as many steps of the host as are missing return the
    code. -/
theorem Returning.exec (hzero : ∀ c, clusters c = true → c = 0) (as : List Action)
    (h : Returning c code log s n) (hinv : Inv s)
    (hexec : (channel clusters).exec s as = some s') :
    Returning c code log s' (n - as.count .host) := by
  induction as generalizing s n with
  | nil =>
    cases hexec
    exact h
  | cons a as ih =>
    rw [System.exec_cons] at hexec
    obtain ⟨t, hn, ht⟩ := Option.bind_eq_some_iff.mp hexec
    have hrest := ih (h.next hinv hn) (inv_next hzero hinv hn) ht
    have hcount : (a :: as).count .host = [a].count .host + as.count .host := by
      rw [← List.count_append, List.singleton_append]
    rw [hcount, ← Nat.sub_sub]
    exact hrest

end returning

theorem returns_pending (hzero : ∀ c, clusters c = true → c = 0) (hinv : Inv s) {c : ClusterId}
    {code : BitVec 32} (hpoll : s.host = .poll c) (hpending : s.pending c = some code)
    {as : List Action} (hexec : (channel clusters).exec s as = some s')
    (hthree : 3 ≤ as.count .host) : s.returned ++ [(c, code)] <+: s'.returned := by
  have hstart : Returning c code s.returned s 3 := .poll hpoll hpending rfl
  have hend := hstart.exec hzero as hinv hexec
  rw [Nat.sub_eq_zero_of_le hthree] at hend
  cases hend with
  | done hlog => exact hlog

theorem faithful_of_zero (hzero : ∀ c, clusters c = true → c = 0)
    (h : (channel clusters).Reachable s) : Faithful clusters s where
  matched := (inv_reachable hzero h).matched
  apart := by
    intro c code s' hn c' hne
    obtain ⟨hc, _, _, rfl⟩ := next_exit hn
    obtain rfl := hzero c hc
    show readReg (writeWord s.mem (exitAddr 0) code) c' = readReg s.mem c'
    rw [(exitAddr_eq_iff 0).mpr rfl]
    exact readReg_writeWord_of_ne s.mem code hne
  moves := host_moves clusters
  returns := by
    intro c code hpoll hpending as s' hexec hthree
    exact returns_pending hzero (inv_reachable hzero h) hpoll hpending hexec hthree

end zero

/-! ## Section 4: The other clusters -/

/-- The registers at reset, before any cluster has exited. -/
def resetState : State where
  mem      := fun _ => 0
  host     := .idle
  pending  := fun _ => none
  exited   := []
  returned := []

theorem readReg_reset (c : ClusterId) : readReg resetState.mem c = 0 := by
  revert c
  decide

theorem resetState_init (clusters : ClusterId → Bool) : (channel clusters).init resetState :=
  ⟨readReg_reset, rfl, fun _ => rfl, rfl, rfl⟩

/-- The code of any other cluster lands, in part at least, in the register
    of a neighbour. -/
theorem exit_hits_neighbour {c : ClusterId} (hc : c ≠ 0) :
    ∃ c', c' ≠ c ∧ readReg (resetState.snrt_exit c 1).mem c' ≠ 0 := by
  revert c
  decide

/-- **When the return channel is faithful**: in every state of every run,
    a call returns the code that is pending for its cluster, the values
    returned are the codes passed and no exit changes the register of
    another cluster, exactly when no cluster but cluster 0 runs
    `snrt_exit`. -/
theorem return_channel_faithful_iff (clusters : ClusterId → Bool) :
    (∀ s, (channel clusters).Reachable s → Faithful clusters s) ↔
      ∀ c, clusters c = true → c = 0 := by
  constructor
  · intro hall c hrunning
    by_contra hne
    obtain ⟨c', hc', hread⟩ := exit_hits_neighbour hne
    have hinit : (channel clusters).Reachable resetState := .init (resetState_init clusters)
    have hnext : (channel clusters).next resetState (.exit c 1) =
        some (resetState.snrt_exit c 1) :=
      if_pos ⟨hrunning, by decide, rfl⟩
    have hsame := (hall resetState hinit).apart c 1 _ hnext c' hc'
    rw [readReg_reset] at hsame
    exact hread hsame
  · intro hzero s hs
    exact faithful_of_zero hzero hs

/-- Cluster 4 exits with 3, and the host takes the code for that of
    cluster 1, which has not exited. -/
theorem cluster4_taken_for_cluster1 :
    ¬ ∀ (clusters : ClusterId → Bool) (s : State),
        (channel clusters).Reachable s → Faithful clusters s := by
  intro hall
  have hs := System.reachable_of_exec (channel fun _ => true) resetState
    [.exit 4 3, .call 1, .host, .host, .host] (resetState_init _) rfl
  have hmatched := (hall _ _ hs).matched 1
  exact absurd hmatched (by decide)

end ReturnChannel
