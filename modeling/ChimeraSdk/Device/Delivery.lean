import ChimeraSdk.Device.Exclusion

/-! # Delivery of Flushed Buffers

    The cores of one cluster print; the host writes what they flush.
    Whether every buffer is written exactly once depends on the word the
    service loop answers on.  The cores wait for `host_to_device`, and a
    loop that sets it delivers.  `test_cluster` stores the address back to
    `device_to_host`: the request is serviced again and again, and its
    core waits forever. -/

open LTS

namespace Putc

set_option linter.unusedSectionVars false

variable {C K : Type} [DecidableEq C] [DecidableEq K]
variable {cfg : Config C K} {s s' : State C K} {k : K}

/-! ## Section 1: One cluster -/

def singleCluster (answer : Answer) : Config Unit K where
  clusterOf := fun _ => ()
  clusterIds := [()]
  answer := answer

/-- The cores of one initialised cluster print `text`. -/
def coreSystem (answer : Answer) (text : K → List Char) :
    System (State Unit K) (Action Unit K) where
  init := fun s => Fresh s ∧ s.text = text ∧ s.init () = .done ∧ s.mutexPtr = some () ∧
    s.lock () = false
  next := next (singleCluster answer)

/-- Every flushed buffer is written exactly once, before its core goes on;
    and once a request has been serviced, it is no longer in
    `device_to_host` and `host_to_device` stays set until its core clears
    it. -/
structure ExactlyOnce (s : State C K) : Prop where
  in_order : ∀ k, entriesOf k s.written <+: entriesOf k s.flushed
  acknowledged : ∀ k, (s.core k).flushing = false →
    entriesOf k s.written = entriesOf k s.flushed
  serviced : ∀ k, s.serviced = some k → s.device_to_host ≠ some k ∧ s.host_to_device ≠ none

/-! ## Section 2: Answers on `host_to_device` -/

/-- What a step of a core means to the data. -/
inductive DataMove (s s' : State C K) (k : K) : Prop where
  | same : (s'.core k).flushing = (s.core k).flushing → s'.buf k = s.buf k →
      s'.flushed = s.flushed → DataMove s s' k
  | fill : (s.core k).flushing = false → (s'.core k).flushing = false →
      s'.flushed = s.flushed → DataMove s s' k
  | describe : s.core k = .describe → s'.core k = .acquire →
      s'.buf k = (s.buf k).describe k →
      s'.flushed = s.flushed ++ [(k, (s.buf k).bytes (s.buf k).size)] → DataMove s s' k
  | answer : s.core k = .wait → s'.core k = .clear → s.host_to_device ≠ none →
      s'.flushed = s.flushed → DataMove s s' k

theorem coreStep_data (hn : s.coreStep cfg k = some s') : DataMove s s' k := by
  unfold State.coreStep at hn
  split at hn
  · cases hn
  · cases hpc : s.core k <;> simp only [hpc] at hn
    -- the four steps that touch the core's buffer or its mailbox
    case describe =>
      cases hn
      exact .describe hpc (by simp [State.setCore]) (by simp [State.setCore, State.setBuf]) rfl
    case wait =>
      split at hn
      · cases hn
      · rename_i hanswer
        cases hn
        exact .answer hpc (by simp [State.setCore]) (by simpa using hanswer) rfl
    case putchar =>
      split at hn
      · cases hn
      · cases hn
        exact .fill (by rw [hpc]; rfl) (by simp [State.setCore, CorePc.flushing]) rfl
    case reset =>
      cases hn
      exact .fill (by rw [hpc]; rfl) (by simp [State.setCore, CorePc.flushing]) rfl
    -- the mutex and the waits leave the data as they are
    all_goals try split at hn
    all_goals cases hn
    all_goals refine .same ?_ rfl rfl
    all_goals simp [State.setCore, hpc, CorePc.flushing]

/-- The host has written the buffer of core `k`, and the core has not seen
    the answer. -/
def State.served (s : State C K) (k : K) : Prop :=
  s.host = .notify k ∨ s.host_to_device = some k

instance (s : State C K) (k : K) : Decidable (s.served k) :=
  inferInstanceAs (Decidable (s.host = .notify k ∨ s.host_to_device = some k))

/-- The buffer core `k` has flushed and the host has not written. -/
def State.owed (s : State C K) (k : K) : List (List Char) :=
  if (s.core k).flushing = true ∧ ¬ s.served k then [(s.buf k).bytes (s.buf k).size] else []

/-- **Delivery invariant**, for a host that answers on `host_to_device`. -/
structure DataInv (s : State C K) : Prop where
  owed : ∀ k, entriesOf k s.flushed = entriesOf k s.written ++ s.owed k
  record : ∀ k, (s.core k).flushing = true →
    (s.buf k).syscall_mem =
      some { number := SYS_WRITE, stream := .stdout, buffer := k, length := (s.buf k).size }
  dispatch : ∀ k k', s.host = .dispatch k k' → k' = k
  serviced : ∀ k, s.serviced = some k → s.device_to_host = none ∧ s.host_to_device = some k

theorem MailInv.answerable_of_served (hm : MailInv s) (hs : s.served k) :
    (s.core k).answerable = true := by
  rcases hs with hhost | hh2d
  · exact CorePc.answerable_of_awaits (hm.serving k (by rw [hhost]; rfl)).1
  · exact hm.answered k hh2d

/-- A core's step changes whether another core is served only if it takes
    that core's answer, and then that core is not flushing. -/
theorem served_core (hi : MutexInv s) (hm : MailInv s) (hn : s.coreStep cfg k = some s')
    {k' : K} (hflush : (s'.core k').flushing = true) : s'.served k' ↔ s.served k' := by
  have hframe := coreStep_frame hn
  have hsame : s'.host_to_device = s.host_to_device → (s'.served k' ↔ s.served k') := by
    intro hh2d
    rw [State.served, State.served, hframe.host, hh2d]
  cases coreStep_mail hn with
  | same _ _ _ hh2d _ _ _ => exact hsame hh2d
  | post _ _ _ hh2d _ _ _ => exact hsame hh2d
  | answer _ _ _ _ hh2d _ _ _ => exact hsame hh2d
  | clear hpc hpc' _ hh2d _ _ _ =>
    have hne : k' ≠ k := by
      rintro rfl
      -- the answer that is cleared is for this core, which is past its flush
      rw [hpc'] at hflush
      cases hflush
    have hnot : s.host_to_device ≠ some k' := by
      intro hans
      have hsec := CorePc.inSection_of_answerable (hm.answered k' hans)
      exact hne (hi.exclusive k' k hsec (by rw [State.mutexView, hpc]; rfl))
    simp [State.served, hframe.host, hh2d, hnot]

theorem owed_core_other (hi : MutexInv s) (hm : MailInv s) (hn : s.coreStep cfg k = some s')
    {k' : K} (hne : k' ≠ k) : s'.owed k' = s.owed k' := by
  have hframe := coreStep_frame hn
  by_cases hflush : (s'.core k').flushing = true
  · have hserved := served_core hi hm hn hflush
    rw [State.owed, State.owed, hframe.core k' hne, hframe.buf k' hne]
    simp only [hserved]
  · have hflush' : ¬ (s.core k').flushing = true := by rwa [hframe.core k' hne] at hflush
    simp [State.owed, hflush, hflush']

theorem owed_of_not_flushing (hflush : (s.core k).flushing = false) : s.owed k = [] := by
  simp [State.owed, hflush]

/-- The delivery invariant for the core that moves. -/
theorem owed_core_self (hi : MutexInv s) (hm : MailInv s) (hd : DataInv s)
    (hn : s.coreStep cfg k = some s') :
    entriesOf k s'.flushed = entriesOf k s.written ++ s'.owed k := by
  have howed := hd.owed k
  cases coreStep_data hn with
  | same hflush hbuf hlog =>
    by_cases hf : (s'.core k).flushing = true
    · have hserved := served_core hi hm hn hf
      rw [State.owed, ← hflush] at howed
      rw [hlog, howed, State.owed, hbuf]
      simp only [hserved]
    · rw [Bool.not_eq_true] at hf
      rw [owed_of_not_flushing (hflush ▸ hf)] at howed
      rw [owed_of_not_flushing hf, hlog, howed]
  | fill hflush hflush' hlog =>
    rw [owed_of_not_flushing hflush] at howed
    rw [owed_of_not_flushing hflush', hlog, howed]
  | describe hpc hpc' hbuf hlog =>
    have hflush : (s'.core k).flushing = true := by rw [hpc']; rfl
    -- the core has not posted: nothing of it can have been served
    have hnot : ¬ s'.served k := by
      rw [served_core hi hm hn hflush]
      intro hs
      have hans := hm.answerable_of_served hs
      rw [hpc] at hans
      cases hans
    rw [owed_of_not_flushing (by rw [hpc]; rfl), List.append_nil] at howed
    rw [State.owed, if_pos ⟨hflush, hnot⟩, hlog, entriesOf_append, entriesOf_self, howed, hbuf]
    rfl
  | answer hpc hpc' hanswer hlog =>
    -- the answer is for this core, whose buffer has been written
    have hserved : s.served k := by
      cases hh : s.host_to_device with
      | none => exact absurd hh hanswer
      | some k' =>
        have hsec := CorePc.inSection_of_answerable (hm.answered k' hh)
        have heq : k' = k := hi.exclusive k' k hsec (by rw [State.mutexView, hpc]; rfl)
        exact Or.inr (heq ▸ hh)
    have hnone : s.owed k = [] := by simp [State.owed, hserved]
    rw [hnone] at howed
    rw [owed_of_not_flushing (by rw [hpc']; rfl), hlog, howed]

theorem dataInv_core (hi : MutexInv s) (hm : MailInv s) (hd : DataInv s)
    (hn : s.coreStep cfg k = some s') : DataInv s' := by
  have hframe := coreStep_frame hn
  refine ⟨?_, ?_, ?_, ?_⟩
  · intro k'
    rw [hframe.written]
    by_cases hne : k' = k
    · rw [hne]
      exact owed_core_self hi hm hd hn
    · rw [hframe.flushed k' hne, owed_core_other hi hm hn hne]
      exact hd.owed k'
  · intro k' hflush
    by_cases hne : k' = k
    · subst hne
      cases coreStep_data hn with
      | same hsame hbuf _ =>
        rw [hbuf]
        exact hd.record k' (hsame ▸ hflush)
      | fill _ hnot _ => rw [hnot] at hflush; cases hflush
      | describe _ _ hbuf _ => rw [hbuf]; rfl
      | answer _ hpc' _ _ => rw [hpc'] at hflush; cases hflush
    · rw [hframe.core k' hne] at hflush
      rw [hframe.buf k' hne]
      exact hd.record k' hflush
  · rw [hframe.host]
    exact hd.dispatch
  · intro k' hk'
    cases coreStep_mail hn with
    | same _ _ hd2h hh2d _ _ hserv =>
      rw [hserv] at hk'
      rw [hd2h, hh2d]
      exact hd.serviced k' hk'
    | post hpc _ _ hh2d _ _ hserv =>
      -- the core that posts has the mailbox to itself
      rw [hserv] at hk'
      have hidle := hm.idle hi (k := k) (by rw [hpc]; rfl) (by rw [hpc]; rfl)
      rw [(hd.serviced k' hk').2] at hidle
      cases hidle.2.1
    | answer _ _ _ hd2h hh2d _ _ hserv =>
      rw [hserv] at hk'
      rw [hd2h, hh2d]
      exact hd.serviced k' hk'
    | clear _ _ _ _ _ _ hserv =>
      rw [hserv] at hk'
      cases hk'

/-- A step of the host that leaves the answer alone and neither starts nor
    ends at `notify` leaves what is owed. -/
theorem owed_host_same (hframe : HostFrame s s') (hh2d : s'.host_to_device = s.host_to_device)
    (hhost : ∀ k, s.host ≠ .notify k) (hhost' : ∀ k, s'.host ≠ .notify k) (k : K) :
    s'.owed k = s.owed k := by
  have hserved : s'.served k ↔ s.served k := by
    simp [State.served, hhost k, hhost' k, hh2d]
  rw [State.owed, State.owed, hframe.core, hframe.buf]
  simp only [hserved]

/-- A step of the host that writes nothing and gives no answer keeps the
    invariant, as long as it is about to write the right buffer. -/
theorem DataInv.of_host_quiet (hd : DataInv s) (hframe : HostFrame s s')
    (hd2h : s.device_to_host = none → s'.device_to_host = none)
    (hh2d : s'.host_to_device = s.host_to_device) (hwritten : s'.written = s.written)
    (hserviced : s'.serviced = s.serviced) (hhost : ∀ k, s.host ≠ .notify k)
    (hhost' : ∀ k, s'.host ≠ .notify k)
    (hdispatch : ∀ k k', s'.host = .dispatch k k' → k' = k) : DataInv s' := by
  refine ⟨?_, ?_, hdispatch, ?_⟩
  · intro k
    rw [hframe.flushed, hwritten, owed_host_same hframe hh2d hhost hhost' k]
    exact hd.owed k
  · rw [hframe.core, hframe.buf]
    exact hd.record
  · intro k hk
    rw [hserviced] at hk
    rw [hh2d]
    exact ⟨hd2h (hd.serviced k hk).1, (hd.serviced k hk).2⟩

theorem dataInv_host {busy : Bool} (hcfg : cfg.answer = .host_to_device) (hm : MailInv s)
    (hd : DataInv s) (hn : s.hostStep cfg busy = some s') : DataInv s' := by
  have hframe := hostStep_frame hn
  have hrecord : ∀ k, (s'.core k).flushing = true → (s'.buf k).syscall_mem =
      some { number := SYS_WRITE, stream := .stdout, buffer := k, length := (s'.buf k).size } := by
    rw [hframe.core, hframe.buf]
    exact hd.record
  cases (hostStep_move hn).1 with
  | idle hserving hserving' hd2h hh2d hunread hwritten hserviced =>
    apply hd.of_host_quiet hframe (fun h => hd2h.trans h) hh2d hwritten hserviced
    · intro k hk
      rw [hk] at hserving
      cases hserving
    · intro k hk
      rw [hk] at hserving'
      cases hserving'
    · intro k k' hk
      rw [hk] at hserving'
      cases hserving'
  | load k hpc hpc' hmail hd2h hh2d hunread hwritten hserviced =>
    apply hd.of_host_quiet hframe (fun h => hd2h.trans h) hh2d hwritten hserviced
    · simp [hpc]
    · simp [hpc']
    · simp [hpc']
  | ack k hpc hpc' hd2h hh2d hunread hwritten hserviced =>
    apply hd.of_host_quiet hframe (fun _ => hd2h) hh2d hwritten hserviced
    · simp [hpc]
    · simp [hpc']
    · simp [hpc']
  | fetch k mem hpc hpc' hmem hd2h hh2d hunread hwritten hserviced =>
    apply hd.of_host_quiet hframe (fun h => hd2h.trans h) hh2d hwritten hserviced
    · simp [hpc]
    · simp [hpc']
    · -- the record read is the one the core has written: it names its own buffer
      have hflush : (s.core k).flushing = true :=
        CorePc.flushing_of_awaits (hm.serving k (by rw [hpc]; rfl)).1
      intro k₁ k₂ heq
      rw [hpc', HostPc.dispatch.injEq] at heq
      rw [hd.record k hflush, Option.some.injEq] at hmem
      rw [← heq.1, ← heq.2, ← hmem]
  | dispatch k k' mem hpc hpc' hmem hd2h hh2d hunread hserviced hwritten =>
    obtain ⟨hawaits, hnone, _⟩ := hm.serving k (by rw [hpc]; rfl)
    have hflush := CorePc.flushing_of_awaits hawaits
    -- the buffer moves from what is owed to what is written
    have heq := hd.dispatch k k' hpc
    rw [hd.record k hflush, Option.some.injEq] at hmem
    subst hmem heq
    rw [if_pos rfl] at hwritten
    refine ⟨?_, hrecord, by simp [hpc'], ?_⟩
    · intro k
      rw [hframe.flushed, hwritten, entriesOf_append, hd.owed k]
      by_cases hne : k' = k
      · subst hne
        have hpre : s.owed k' = [(s.buf k').bytes (s.buf k').size] := by
          simp [State.owed, State.served, hflush, hpc, hnone]
        have hpost : s'.owed k' = [] := by simp [State.owed, State.served, hpc']
        rw [hpre, hpost, entriesOf_self, List.append_nil]
      · have hserved : s'.served k ↔ s.served k := by
          simp [State.served, hpc, hpc', hne, hh2d]
        rw [entriesOf_ne _ hne, List.append_nil, State.owed, State.owed, hframe.core, hframe.buf]
        simp only [hserved]
    · rw [hserviced, hd2h, hh2d]
      exact hd.serviced
  | notify k hpc hpc' hd2h hh2d hunread hwritten hserviced =>
    have hclear := hm.acked (by rw [hpc]; rfl)
    -- served before by the host's program counter, now by the answer
    obtain ⟨_, hnone, _⟩ := hm.serving k (by rw [hpc]; rfl)
    rw [hcfg, if_neg (by decide), hclear] at hd2h
    rw [hcfg, if_pos rfl] at hh2d
    refine ⟨?_, hrecord, by simp [hpc'], ?_⟩
    · intro k'
      have hserved : s'.served k' ↔ s.served k' := by
        simp [State.served, hpc, hpc', hh2d, hnone]
      rw [hframe.flushed, hwritten, hd.owed k', State.owed, State.owed, hframe.core, hframe.buf]
      simp only [hserved]
    · intro k' hk'
      rw [hserviced] at hk'
      rw [hd2h, hh2d]
      exact ⟨rfl, hk'⟩

theorem exactlyOnce_of_dataInv (hd : DataInv s) : ExactlyOnce s where
  in_order := fun k => ⟨_, (hd.owed k).symm⟩
  acknowledged := fun k hflush => by
    rw [hd.owed k, owed_of_not_flushing hflush, List.append_nil]
  serviced := fun k hk => by
    obtain ⟨hd2h, hh2d⟩ := hd.serviced k hk
    simp [hd2h, hh2d]

/-- The invariants of one initialised cluster. -/
structure ClusterInv (s : State Unit K) : Prop where
  ready : s.init () = .done
  mutex : MutexInv s
  mail  : MailInv s
  data  : DataInv s

theorem clusterInv_init {answer : Answer} {text : K → List Char} {s : State Unit K}
    (hi : (coreSystem answer text).init s) : ClusterInv s := by
  obtain ⟨hf, _, hinit, _⟩ := hi
  obtain ⟨hmutex, hmail⟩ := invs_fresh hf
  obtain ⟨hserviced, _, _, hflushed, hwritten⟩ := hf.observed
  refine ⟨hinit, hmutex, hmail, ?_, ?_, ?_, ?_⟩
  · intro k
    rw [owed_of_not_flushing (by rw [hf.core k]; rfl), hflushed, hwritten]
    rfl
  · intro k hflush
    rw [hf.core k] at hflush
    cases hflush
  · simp [hf.host.1]
  · simp [hserviced]

theorem clusterInv_next {text : K → List Char} {s s' : State Unit K} {a : Action Unit K}
    (hi : ClusterInv s) (hn : (coreSystem .host_to_device text).next s a = some s') :
    ClusterInv s' := by
  cases a with
  | core k =>
    have hn : s.coreStep (singleCluster .host_to_device) k = some s' := hn
    exact ⟨(coreStep_frame hn).init ▸ hi.ready, mutexInv_core hi.mutex hn,
      mailInv_core hi.mutex hi.mail hn, dataInv_core hi.mutex hi.mail hi.data hn⟩
  | init c =>
    -- the cluster is initialised already
    have hn : s.initStep () = some s' := hn
    simp [State.initStep, hi.ready] at hn
  | host busy =>
    have hn : s.hostStep (singleCluster .host_to_device) busy = some s' := hn
    exact ⟨(hostStep_frame hn).init ▸ hi.ready, mutexInv_host hi.mutex hn,
      mailInv_host hi.mail hn, dataInv_host rfl hi.mail hi.data hn⟩

/-- A service loop that answers on `host_to_device` delivers every buffer
    exactly once, whatever the cores print. -/
theorem exactlyOnce_of_host_to_device (text : K → List Char) {s : State Unit K}
    (h : (coreSystem .host_to_device text).Reachable s) : ExactlyOnce s := by
  have hinv : ClusterInv s :=
    h.invariant (fun _ hi => clusterInv_init hi) (fun _ _ _ hi hn => clusterInv_next hi hn)
  exact exactlyOnce_of_dataInv hinv.data

/-! ## Section 3: Answers on `device_to_host`

    With the loop of `test_cluster` the first request that is serviced is
    put back into `device_to_host`, and `host_to_device` is never set.  So
    all is well only as long as there is no request. -/

/-- A text makes its core flush: it has a newline or fills the buffer. -/
def Flushes (text : List Char) : Prop :=
  '\n' ∈ text ∨ PUTC_BUFFER_LEN ≤ text.length

/-- The rest of a text makes its core flush, `size` characters being in
    the buffer. -/
def flushesFrom : Nat → List Char → Bool
  | _, [] => false
  | size, c :: rest =>
      (size + 1 == PUTC_BUFFER_LEN || c == '\n') || flushesFrom (size + 1) rest

theorem flushesFrom_iff (text : List Char) : ∀ size, size < PUTC_BUFFER_LEN →
    (flushesFrom size text = true ↔ '\n' ∈ text ∨ PUTC_BUFFER_LEN ≤ size + text.length) := by
  induction text with
  | nil =>
    intro size hsize
    simp only [flushesFrom, List.not_mem_nil, List.length_nil]
    constructor
    · intro h; cases h
    · intro h
      rcases h with h | h
      · cases h
      · omega
  | cons c rest ih =>
    intro size hsize
    simp only [flushesFrom, Bool.or_eq_true, beq_iff_eq, List.mem_cons, List.length_cons]
    -- a full buffer flushes whatever the character is
    by_cases hfull : size + 1 = PUTC_BUFFER_LEN
    · have hlen : PUTC_BUFFER_LEN ≤ size + (rest.length + 1) := by omega
      simp [hfull, hlen]
    · rw [ih (size + 1) (by omega), Nat.add_right_comm size 1, Nat.add_assoc]
      constructor
      · rintro ((h | h) | h | h)
        · exact absurd h hfull
        · exact Or.inl (Or.inl h.symm)
        · exact Or.inl (Or.inr h)
        · exact Or.inr h
      · rintro ((h | h) | h)
        · exact Or.inl (Or.inr h.symm)
        · exact Or.inr (Or.inl h)
        · exact Or.inr (Or.inr h)

theorem flushes_iff (text : List Char) : Flushes text ↔ flushesFrom 0 text = true := by
  rw [flushesFrom_iff text 0 (by decide), Flushes, Nat.zero_add]

/-! ### Cores that never flush -/

/-- A core that is not flushing and will not. -/
def Silent (s : State C K) (k : K) : Prop :=
  match s.core k with
  | .putchar => flushesFrom (s.buf k).size (s.text k) = false
  | .test c => (s.buf k).flushes c = false ∧ flushesFrom (s.buf k).size (s.text k) = false
  | _ => False

/-- Nothing has been requested and nothing will be. -/
structure SilentInv (s : State Unit K) : Prop where
  ready  : s.init () = .done
  silent : ∀ k, Silent s k
  mail   : s.device_to_host = none ∧ s.host.serving = none ∧ s.serviced = none
  logs   : s.flushed = [] ∧ s.written = []

theorem silent_core (hs : Silent s k) (hn : s.coreStep cfg k = some s') :
    Silent s' k ∧ s'.device_to_host = s.device_to_host ∧ s'.serviced = s.serviced ∧
    s'.flushed = s.flushed := by
  unfold State.coreStep at hn
  split at hn
  · cases hn
  · unfold Silent at hs
    cases hpc : s.core k <;> rw [hpc] at hs <;> simp only [hpc] at hn
    case putchar =>
      cases htext : s.text k with
      | nil => rw [htext] at hn; cases hn
      | cons c rest =>
        rw [htext] at hn hs
        cases hn
        simp only [flushesFrom, Bool.or_eq_false_iff] at hs
        simp [Silent, State.setCore, State.setBuf, PutcBuffer.push, PutcBuffer.flushes, hs]
    case test c =>
      rw [hs.1] at hn
      cases hn
      simp [Silent, State.setCore, hs.2]
    all_goals cases hs

theorem silentInv_next {answer : Answer} {text : K → List Char} {s s' : State Unit K}
    {a : Action Unit K} (hi : SilentInv s)
    (hn : (coreSystem answer text).next s a = some s') : SilentInv s' := by
  obtain ⟨hd2h, hserving, hserviced⟩ := hi.mail
  obtain ⟨hflushed, hwritten⟩ := hi.logs
  cases a with
  | core k =>
    have hn : s.coreStep (singleCluster answer) k = some s' := hn
    have hframe := coreStep_frame hn
    obtain ⟨hsilent, hd, hserv, hlog⟩ := silent_core (hi.silent k) hn
    refine ⟨hframe.init ▸ hi.ready, ?_, ⟨hd.trans hd2h, hframe.host ▸ hserving,
      hserv.trans hserviced⟩, hlog.trans hflushed, hframe.written.trans hwritten⟩
    intro k'
    by_cases hne : k' = k
    · exact hne ▸ hsilent
    · have hold := hi.silent k'
      unfold Silent at hold ⊢
      rw [hframe.core k' hne, hframe.buf k' hne, hframe.text k' hne]
      exact hold
  -- `_init` has run before, so it does not run again
  | init c =>
    have hn : s.initStep () = some s' := hn
    simp [State.initStep, hi.ready] at hn
  | host busy =>
    have hn : s.hostStep (singleCluster answer) busy = some s' := hn
    have hframe := hostStep_frame hn
    cases (hostStep_move hn).1 with
    | idle _ hserving' hd _ _ hlog hserv =>
      refine ⟨hframe.init ▸ hi.ready, ?_, ⟨hd.trans hd2h, hserving', hserv.trans hserviced⟩,
        hframe.flushed.trans hflushed, hlog.trans hwritten⟩
      intro k
      have hold := hi.silent k
      unfold Silent at hold ⊢
      rw [hframe.core, hframe.buf, hframe.text]
      exact hold
    -- with an empty register and no core served, the host has nothing to
    -- load and nothing to finish
    | load k _ _ hd _ _ _ _ _ => rw [hd2h] at hd; cases hd
    | ack k hpc => rw [hpc] at hserving; cases hserving
    | fetch k mem hpc => rw [hpc] at hserving; cases hserving
    | dispatch k k' mem hpc => rw [hpc] at hserving; cases hserving
    | notify k hpc => rw [hpc] at hserving; cases hserving

theorem exactlyOnce_of_silent {s : State Unit K} (hi : SilentInv s) : ExactlyOnce s := by
  obtain ⟨hflushed, hwritten⟩ := hi.logs
  refine ⟨?_, ?_, ?_⟩
  · intro k; rw [hflushed, hwritten]
  · intro k _; rw [hflushed, hwritten]
  · intro k hk
    rw [hi.mail.2.2] at hk
    cases hk

/-! ### A core that flushes -/

/-- What printing leaves alone as long as nothing is flushed. -/
structure Undisturbed (s s' : State Unit K) : Prop where
  init : s'.init = s.init
  mutex : s'.mutexPtr = s.mutexPtr ∧ s'.lock = s.lock
  host : s'.host = s.host ∧ s'.done = s.done
  mailbox : s'.device_to_host = s.device_to_host

/-- A core whose text flushes gets there on its own. -/
theorem exec_until_flush {answer : Answer} (texts : K → List Char) (k : K) :
    ∀ (text : List Char) (s : State Unit K), s.init () = .done → s.core k = .putchar →
      s.text k = text → flushesFrom (s.buf k).size text = true →
      ∃ as s', (coreSystem answer texts).exec s as = some s' ∧ s'.core k = .describe ∧
        Undisturbed s s' := by
  intro text
  induction text with
  | nil => intro s _ _ _ hf; cases hf
  | cons c rest ih =>
    intro s hready hpc htext hf
    -- `snrt_putchar` stores the character, then tests for a flush
    have hstore : ∃ t, (coreSystem answer texts).next s (.core k) = some t ∧
        t.core k = .test c ∧ t.text k = rest ∧ (t.buf k).size = (s.buf k).size + 1 ∧
        Undisturbed s t := by
      refine ⟨_, by simp [coreSystem, next, State.coreStep, hready, hpc, htext]; rfl, ?_⟩
      simp only [State.setCore, State.setBuf, Function.update_self, PutcBuffer.push, true_and]
      exact ⟨rfl, ⟨rfl, rfl⟩, ⟨rfl, rfl⟩, rfl⟩
    obtain ⟨t, hstore, htpc, httext, htsize, htsame⟩ := hstore
    have htready : t.init () = .done := by rw [htsame.init, hready]
    by_cases hflush : (t.buf k).flushes c = true
    · refine ⟨[.core k, .core k], t.setCore k .describe, ?_, by simp [State.setCore], ?_⟩
      · simp [System.exec_cons, hstore]
        simp [coreSystem, next, State.coreStep, htready, htpc, hflush]
      · exact ⟨htsame.init, htsame.mutex, htsame.host, htsame.mailbox⟩
    · have hrest : flushesFrom ((t.setCore k .putchar).buf k).size rest = true := by
        simp only [flushesFrom, Bool.or_eq_true] at hf
        simp only [PutcBuffer.flushes, htsize, Bool.or_eq_true] at hflush
        rcases hf with hf | hf
        · exact absurd hf hflush
        · simpa [State.setCore, htsize] using hf
      obtain ⟨as, s', hexec, hpc', hsame⟩ := ih (t.setCore k .putchar) htready
        (by simp [State.setCore]) httext hrest
      refine ⟨.core k :: .core k :: as, s', ?_, hpc', ?_⟩
      · have htest : (coreSystem answer texts).next t (.core k) =
            some (t.setCore k .putchar) := by
          simp [coreSystem, next, State.coreStep, htready, htpc, hflush]
        rw [System.exec_cons, hstore, Option.bind_some, System.exec_cons, htest]
        exact hexec
      · exact ⟨hsame.init.trans htsame.init,
          ⟨hsame.mutex.1.trans htsame.mutex.1, hsame.mutex.2.trans htsame.mutex.2⟩,
          ⟨hsame.host.1.trans htsame.host.1, hsame.host.2.trans htsame.host.2⟩,
          hsame.mailbox.trans htsame.mailbox⟩

/-- From there the core posts its request. -/
theorem exec_post (texts : K → List Char) {s : State Unit K} {k : K}
    (hready : s.init () = .done) (hpc : s.core k = .describe) (hptr : s.mutexPtr = some ())
    (hfree : s.lock () = false) :
    ∃ s' mem, (coreSystem .device_to_host texts).exec s (List.replicate 4 (.core k)) = some s' ∧
      s'.host = s.host ∧ s'.done = s.done ∧ s'.device_to_host = some k ∧
      (s'.buf k).syscall_mem = some mem ∧ mem.number = SYS_WRITE := by
  simp [List.replicate, System.exec_cons, coreSystem, next, State.coreStep, singleCluster,
    State.setCore, State.setBuf, State.setLock, PutcBuffer.describe, hready, hpc, hptr, hfree]

/-- The host services the request and puts it back into the mailbox. -/
theorem exec_service (texts : K → List Char) {s : State Unit K} {k : K} {mem : SyscallMem K}
    (hhost : s.host = .top) (hdone : s.done = 0) (hmail : s.device_to_host = some k)
    (hmem : (s.buf k).syscall_mem = some mem) (hnumber : mem.number = SYS_WRITE) :
    ∃ s', (coreSystem .device_to_host texts).exec s (List.replicate 10 (.host true)) = some s' ∧
      s'.serviced = some k ∧ s'.device_to_host = some k := by
  simp [List.replicate, System.exec_cons, coreSystem, next, State.hostStep, singleCluster,
    hhost, hdone, hmail, hmem, hnumber]

/-- **Exactly once, exactly when nothing is flushed**: under the service
    loop of `test_cluster`, all runs of a cluster deliver every flushed
    buffer exactly once and complete every request if and only if no core
    has a text that flushes. -/
theorem exactlyOnce_iff_no_flush (K : Type) [DecidableEq K] (text : K → List Char) :
    (∀ s, (coreSystem .device_to_host text).Reachable s → ExactlyOnce s) ↔
    ∀ k, ¬ Flushes (text k) := by
  constructor
  · intro hall k hflush
    -- the run that refutes: core `k` prints up to its first flush and posts,
    -- the host services the request once
    let s₀ : State Unit K :=
      { core := fun _ => .putchar, text := text, init := fun _ => .done, mutexPtr := some (),
        buf := fun _ => { size := 0, syscall_mem := none, data := fun _ => '\x00' },
        lock := fun _ => false, device_to_host := none, host_to_device := none, msip := false,
        host := .top, done := 0, serviced := none, unread := false, overwritten := false,
        flushed := [], written := [] }
    have hinit : (coreSystem .device_to_host text).init s₀ :=
      ⟨⟨fun _ => rfl, fun _ => rfl, ⟨rfl, rfl⟩, ⟨rfl, rfl⟩, ⟨rfl, rfl, rfl, rfl, rfl⟩⟩,
        rfl, rfl, rfl, rfl⟩
    obtain ⟨as, s₁, hexec₁, hpc, hsame⟩ := exec_until_flush text k (text k) s₀
      rfl rfl rfl ((flushes_iff _).mp hflush)
    obtain ⟨s₂, mem, hexec₂, hhost, hdone, hmail, hmem, hnumber⟩ := exec_post text
      (by rw [hsame.init]) hpc (by rw [hsame.mutex.1]) (by rw [hsame.mutex.2])
    obtain ⟨s₃, hexec₃, hserviced, hd2h⟩ := exec_service text
      (by rw [hhost, hsame.host.1]) (by rw [hdone, hsame.host.2]) hmail hmem hnumber
    have hreach := System.exec_reachable _ (System.exec_reachable _
      (System.exec_reachable as (.init hinit) hexec₁) hexec₂) hexec₃
    exact ((hall s₃ hreach).serviced k hserviced).1 hd2h
  · intro hno s hs
    have hinv : SilentInv s := by
      -- nothing is ever posted, so the host stays in its polling loop
      refine hs.invariant ?_ (fun _ _ _ hi hn => silentInv_next hi hn)
      rintro s ⟨hf, htext, hready, _⟩
      obtain ⟨hserviced, _, _, hflushed, hwritten⟩ := hf.observed
      refine ⟨hready, ?_, ⟨hf.mailbox.1, by rw [hf.host.1]; rfl, hserviced⟩, hflushed, hwritten⟩
      intro k
      have hk := hno k
      rw [flushes_iff, Bool.not_eq_true] at hk
      simp only [Silent, hf.core k, hf.buf k, htext, hk]
    exact exactlyOnce_of_silent hinv

/-- One core and one newline are enough. -/
theorem newline_not_delivered :
    ¬ ∀ s, (coreSystem .device_to_host (fun _ : Unit => ['\n'])).Reachable s →
      ExactlyOnce s := by
  intro hall
  let s₀ : State Unit Unit :=
    { core := fun _ => .putchar, text := fun _ => ['\n'], init := fun _ => .done,
      buf := fun _ => { size := 0, syscall_mem := none, data := fun _ => '\x00' },
      mutexPtr := some (), lock := fun _ => false, device_to_host := none,
      host_to_device := none, msip := false, host := .top, done := 0, serviced := none,
      unread := false, overwritten := false, flushed := [], written := [] }
  have hs := System.reachable_of_exec (coreSystem .device_to_host (fun _ : Unit => ['\n'])) s₀
    (List.replicate 6 (.core ()) ++ List.replicate 10 (.host true))
    ⟨⟨fun _ => rfl, fun _ => rfl, ⟨rfl, rfl⟩, ⟨rfl, rfl⟩, ⟨rfl, rfl, rfl, rfl, rfl⟩⟩,
      rfl, rfl, rfl, rfl⟩ rfl
  exact absurd ((hall _ hs).serviced () rfl).1 (by decide)

end Putc
