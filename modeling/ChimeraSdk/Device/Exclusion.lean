import ChimeraSdk.Device.Putc
import Mathlib.Data.Fintype.Basic

/-! # Exclusion at the Mailbox

    One core at a time may use the mailbox.  The mutex ensures this as
    long as its pointer stays where it is: `snrt_printf_init` of a further
    cluster redirects the one global pointer to a lock of its own, and is
    harmless only while nobody uses the mutex. -/

open LTS

namespace Putc

set_option linter.unusedSectionVars false

variable {C K : Type} [DecidableEq C] [DecidableEq K]
variable {cfg : Config C K} {s s' : State C K} {k : K}

/-! ## Section 1: The mutex -/

/-- What a step of a core means to the mutex. -/
inductive MutexMove (s s' : State C K) (k : K) : Prop where
  | same : (s'.core k).mutexView = s.mutexView k → s'.lock = s.lock → MutexMove s s' k
  | enter (mutex : C) : (s'.core k).mutexView = .spinning mutex →
      s.mutexPtr = some mutex → s'.lock = s.lock → MutexMove s s' k
  | take (mutex : C) : s.mutexView k = .spinning mutex →
      (s'.core k).mutexView = .holding → s.lock mutex = false →
      s'.lock = Function.update s.lock mutex true → MutexMove s s' k
  | leave (mutex : C) : s.mutexView k = .holding →
      (s'.core k).mutexView = .leaving mutex → s.mutexPtr = some mutex →
      s'.lock = s.lock → MutexMove s s' k
  | drop (mutex : C) : s.mutexView k = .leaving mutex →
      (s'.core k).mutexView = .outside →
      s'.lock = Function.update s.lock mutex false → MutexMove s s' k

/-- What a step of a core leaves alone. -/
structure CoreFrame (s s' : State C K) (k : K) : Prop where
  core     : ∀ k', k' ≠ k → s'.core k' = s.core k'
  buf      : ∀ k', k' ≠ k → s'.buf k' = s.buf k'
  text     : ∀ k', k' ≠ k → s'.text k' = s.text k'
  flushed  : ∀ k', k' ≠ k → entriesOf k' s'.flushed = entriesOf k' s.flushed
  written  : s'.written = s.written
  init     : s'.init = s.init
  mutexPtr : s'.mutexPtr = s.mutexPtr
  host     : s'.host = s.host

theorem coreStep_frame (hn : s.coreStep cfg k = some s') : CoreFrame s s' k := by
  unfold State.coreStep at hn
  split at hn
  · cases hn
  · split at hn
    all_goals try split at hn
    all_goals cases hn
    all_goals constructor
    all_goals try rfl
    all_goals intro k' hne
    all_goals simp [State.setCore, State.setBuf, State.setLock, hne, entriesOf_ne _ (Ne.symm hne)]

theorem coreStep_mutex (hn : s.coreStep cfg k = some s') : MutexMove s s' k := by
  unfold State.coreStep at hn
  split at hn
  · cases hn
  · cases hpc : s.core k <;> simp only [hpc] at hn
    -- the four steps of the mutex
    case acquire =>
      cases hptr : s.mutexPtr with
      | none => rw [hptr] at hn; cases hn
      | some mutex =>
        rw [hptr] at hn
        cases hn
        exact .enter mutex (by simp [State.setCore, CorePc.mutexView]) hptr rfl
    case spin mutex =>
      split at hn
      · cases hn
      · rename_i hfree
        cases hn
        refine .take mutex (by rw [State.mutexView, hpc]; rfl) ?_ (by simpa using hfree) rfl
        simp [State.setCore, CorePc.mutexView]
    case release =>
      cases hptr : s.mutexPtr with
      | none => rw [hptr] at hn; cases hn
      | some mutex =>
        rw [hptr] at hn
        cases hn
        refine .leave mutex (by rw [State.mutexView, hpc]; rfl) ?_ hptr rfl
        simp [State.setCore, CorePc.mutexView]
    case unlock mutex =>
      cases hn
      refine .drop mutex (by rw [State.mutexView, hpc]; rfl) ?_ rfl
      simp [State.setCore, CorePc.mutexView]
    -- every other step leaves the views of the mutex alone
    all_goals try split at hn
    all_goals cases hn
    all_goals exact .same (by simp [State.setCore, State.mutexView, hpc, CorePc.mutexView]) rfl

/-- The mutex invariant of a state. -/
def MutexInv (s : State C K) : Prop := Mutex.Inv s.mutexView s.mutexPtr s.lock

/-- The mutex sees the program counters of the cores and nothing else. -/
theorem mutexView_of_core (hcore : s'.core = s.core) : s'.mutexView = s.mutexView := by
  funext k'
  rw [State.mutexView, hcore]; rfl

theorem mutexView_core (hn : s.coreStep cfg k = some s') :
    s'.mutexView = Function.update s.mutexView k (s'.core k).mutexView := by
  funext k'
  by_cases hne : k' = k
  · rw [hne, Function.update_self]; rfl
  · rw [Function.update_of_ne hne, State.mutexView, (coreStep_frame hn).core k' hne]; rfl

theorem mutexInv_core (hi : MutexInv s) (hn : s.coreStep cfg k = some s') : MutexInv s' := by
  have hview := mutexView_core hn
  rw [MutexInv, hview, (coreStep_frame hn).mutexPtr]
  cases coreStep_mutex hn with
  | same hsame hlock =>
    rw [hsame, hlock, Function.update_eq_self]
    exact hi
  | enter mutex hspin hptr hlock =>
    rw [hspin, hlock]
    exact hi.enter hptr
  | take mutex hspin hhold hfree hlock =>
    rw [hhold, hlock]
    exact hi.take hspin hfree
  | leave mutex hhold hleave hptr hlock =>
    rw [hleave, hlock]
    exact hi.leave hhold hptr
  | drop mutex hleave hout hlock =>
    rw [hout, hlock]
    exact hi.drop hleave

/-- What a step of the host leaves alone. -/
structure HostFrame (s s' : State C K) : Prop where
  core     : s'.core = s.core
  text     : s'.text = s.text
  buf      : s'.buf = s.buf
  init     : s'.init = s.init
  mutexPtr : s'.mutexPtr = s.mutexPtr
  lock     : s'.lock = s.lock
  flushed  : s'.flushed = s.flushed

theorem hostStep_frame {busy : Bool} (hn : s.hostStep cfg busy = some s') : HostFrame s s' := by
  unfold State.hostStep at hn
  split at hn
  all_goals try split at hn
  all_goals try split at hn
  all_goals cases hn
  all_goals exact ⟨rfl, rfl, rfl, rfl, rfl, rfl, rfl⟩

theorem mutexInv_host {busy : Bool} (hi : MutexInv s) (hn : s.hostStep cfg busy = some s') :
    MutexInv s' := by
  have hframe := hostStep_frame hn
  rw [MutexInv, mutexView_of_core hframe.core, hframe.mutexPtr, hframe.lock]
  exact hi

/-- A store of `snrt_printf_init` finds nobody using the mutex. -/
def InitQuiet (s : State C K) : Action C K → Prop
  | .init c => s.init c ≠ .load → ∀ k, (s.core k).usesMutex = false
  | _ => True

instance [Fintype K] (s : State C K) (a : Action C K) : Decidable (InitQuiet s a) :=
  match a with
  | .init c => inferInstanceAs
      (Decidable (s.init c ≠ .load → ∀ k, (s.core k).usesMutex = false))
  | .core _ => isTrue trivial
  | .host _ => isTrue trivial

/-- A cluster's initialisation leaves the cores and the mailbox alone. -/
structure InitFrame (s s' : State C K) : Prop where
  core    : s'.core = s.core
  mailbox : s'.device_to_host = s.device_to_host ∧ s'.host_to_device = s.host_to_device
  host    : s'.host = s.host
  observed : s'.unread = s.unread ∧ s'.overwritten = s.overwritten

theorem initStep_frame {c : C} (hn : s.initStep c = some s') : InitFrame s s' := by
  unfold State.initStep at hn
  split at hn
  all_goals try split at hn
  all_goals cases hn
  all_goals exact ⟨rfl, ⟨rfl, rfl⟩, rfl, ⟨rfl, rfl⟩⟩

theorem mutexInv_init {c : C} (hi : MutexInv s) (hok : InitQuiet s (.init c))
    (hn : s.initStep c = some s') : MutexInv s' := by
  have hview := mutexView_of_core (initStep_frame hn).core
  by_cases hload : s.init c = .load
  · -- the pointer is loaded, nothing is stored
    unfold State.initStep at hn
    rw [hload] at hn
    simp only at hn
    split at hn
    · cases hn
    · cases hn
      exact hi
  · rw [MutexInv, hview]
    refine Mutex.Inv.of_outside ?_ _ _
    intro k'
    have hquiet := hok hload k'
    rw [State.mutexView]
    simpa [CorePc.usesMutex] using hquiet

/-! ## Section 2: The mailbox -/

/-- What a step of a core means to the mailbox. -/
inductive MailMove (s s' : State C K) (k : K) : Prop where
  | same : (s'.core k).awaits = (s.core k).awaits →
      (s'.core k).answerable = (s.core k).answerable →
      s'.device_to_host = s.device_to_host → s'.host_to_device = s.host_to_device →
      s'.unread = s.unread → s'.overwritten = s.overwritten →
      s'.serviced = s.serviced → MailMove s s' k
  | post : s.core k = .post → s'.core k = .msip → s'.device_to_host = some k →
      s'.host_to_device = s.host_to_device → s'.unread = true →
      s'.overwritten = (s.overwritten || s.unread) → s'.serviced = s.serviced →
      MailMove s s' k
  | answer : s.core k = .wait → s'.core k = .clear → s.host_to_device ≠ none →
      s'.device_to_host = s.device_to_host → s'.host_to_device = s.host_to_device →
      s'.unread = s.unread → s'.overwritten = s.overwritten →
      s'.serviced = s.serviced → MailMove s s' k
  | clear : s.core k = .clear → s'.core k = .reset → s'.device_to_host = s.device_to_host →
      s'.host_to_device = none → s'.unread = s.unread → s'.overwritten = s.overwritten →
      s'.serviced = none → MailMove s s' k

theorem coreStep_mail (hn : s.coreStep cfg k = some s') : MailMove s s' k := by
  unfold State.coreStep at hn
  split at hn
  · cases hn
  · cases hpc : s.core k <;> simp only [hpc] at hn
    case post =>
      cases hn
      exact .post hpc (by simp [State.setCore]) rfl rfl rfl rfl rfl
    case wait =>
      split at hn
      · cases hn
      · rename_i hanswer
        cases hn
        refine .answer hpc (by simp [State.setCore]) ?_ rfl rfl rfl rfl rfl
        simpa using hanswer
    case clear =>
      cases hn
      exact .clear hpc (by simp [State.setCore]) rfl rfl rfl rfl rfl
    all_goals try split at hn
    all_goals cases hn
    all_goals refine .same ?_ ?_ rfl rfl rfl rfl rfl
    all_goals simp [State.setCore, hpc, CorePc.awaits, CorePc.answerable]

/-- **Mailbox invariant**: a request in `device_to_host`, or one the host
    is serving, belongs to a core that waits for an answer which has not
    been given; an unread request is still in the mailbox; and an answer
    is there for the core in the section. -/
structure MailInv (s : State C K) : Prop where
  awaited : ∀ k, s.device_to_host = some k →
    (s.core k).awaits = true ∧ s.host_to_device = none
  serving : ∀ k, s.host.serving = some k →
    (s.core k).awaits = true ∧ s.host_to_device = none ∧ s.unread = false
  acked : s.host.acked = true → s.device_to_host = none
  unread : s.unread = true → s.device_to_host ≠ none
  answered : ∀ k, s.host_to_device = some k → (s.core k).answerable = true
  kept : s.overwritten = false

/-- While a core is in the section without having posted, the mailbox is
    not in use at all: whoever used it would be in the section too. -/
theorem MailInv.idle (hm : MailInv s) (hi : MutexInv s) (hsec : (s.core k).inSection = true)
    (hpc : (s.core k).answerable = false) :
    s.device_to_host = none ∧ s.host_to_device = none ∧ s.host.serving = none := by
  have hnone : ∀ o : Option K, (∀ k', o = some k' → (s.core k').answerable = true) →
      o = none := by
    intro o ho
    cases o with
    | none => rfl
    | some k' =>
      -- whoever uses the mailbox is in the section itself
      have hans := ho k' rfl
      have hsame : k' = k := hi.exclusive k' k (CorePc.inSection_of_answerable hans) hsec
      rw [hsame, hpc] at hans
      cases hans
  refine ⟨hnone _ ?_, hnone _ hm.answered, hnone _ ?_⟩
  · intro k' hd
    exact CorePc.answerable_of_awaits (hm.awaited k' hd).1
  · intro k' hserving
    exact CorePc.answerable_of_awaits (hm.serving k' hserving).1

/-- A step that leaves the mailbox words alone, and of each core whether it
    awaits an answer or can get one, keeps the invariant as long as the
    host does not take up another request. -/
theorem MailInv.of_alike (hm : MailInv s)
    (hawaits : ∀ k, (s'.core k).awaits = (s.core k).awaits)
    (hans : ∀ k, (s'.core k).answerable = (s.core k).answerable)
    (hd2h : s'.device_to_host = s.device_to_host)
    (hh2d : s'.host_to_device = s.host_to_device) (hunread : s'.unread = s.unread)
    (hover : s'.overwritten = s.overwritten)
    (hserving : ∀ k, s'.host.serving = some k → s.host.serving = some k)
    (hacked : s'.host.acked = true → s.host.acked = true) : MailInv s' := by
  refine ⟨?_, ?_, ?_, ?_, ?_, hover.trans hm.kept⟩
  · simpa only [hawaits, hd2h, hh2d] using hm.awaited
  · intro k hk
    rw [hawaits, hh2d, hunread]
    exact hm.serving k (hserving k hk)
  · intro hack
    rw [hd2h]
    exact hm.acked (hacked hack)
  · simpa only [hunread, hd2h] using hm.unread
  · simpa only [hans, hh2d] using hm.answered

theorem mailInv_core (hi : MutexInv s) (hm : MailInv s) (hn : s.coreStep cfg k = some s') :
    MailInv s' := by
  have hframe := coreStep_frame hn
  have hother := hframe.core
  have hhost := hframe.host
  cases coreStep_mail hn with
  | same hawaits hans hd2h hh2d hunread hover _ =>
    have hawaits' : ∀ k', (s'.core k').awaits = (s.core k').awaits := by
      intro k'
      by_cases hne : k' = k
      · rw [hne, hawaits]
      · rw [hother k' hne]
    have hans' : ∀ k', (s'.core k').answerable = (s.core k').answerable := by
      intro k'
      by_cases hne : k' = k
      · rw [hne, hans]
      · rw [hother k' hne]
    apply hm.of_alike hawaits' hans' hd2h hh2d hunread hover
    · rw [hhost]
      exact fun _ hk => hk
    · rw [hhost]
      exact id
  | post hpc hpc' hd2h hh2d hunread hover _ =>
    -- the mailbox is free: nothing is overwritten
    obtain ⟨hd, hh, hserving⟩ := hm.idle hi (by rw [hpc]; rfl) (by rw [hpc]; rfl)
    have hread : s.unread = false := by
      by_contra hun
      exact hm.unread (by simpa using hun) hd
    refine ⟨?_, ?_, ?_, ?_, ?_, ?_⟩
    · intro k' hk'
      rw [hd2h, Option.some.injEq] at hk'
      rw [← hk', hpc', hh2d]
      exact ⟨rfl, hh⟩
    · intro k' hk'
      rw [hhost, hserving] at hk'
      cases hk'
    · intro hacked
      rw [hhost, HostPc.acked_of_not_serving hserving] at hacked
      cases hacked
    · intro _
      rw [hd2h]
      simp
    · intro k' hk'
      rw [hh2d, hh] at hk'
      cases hk'
    · rw [hover, hm.kept, hread]; rfl
  | answer hpc hpc' hanswer hd2h hh2d hunread hover _ =>
    -- with an answer in the mailbox no request is waiting or being served
    refine ⟨?_, ?_, ?_, ?_, ?_, ?_⟩
    · intro k' hk'
      rw [hd2h] at hk'
      exact absurd (hm.awaited k' hk').2 hanswer
    · intro k' hk'
      rw [hhost] at hk'
      exact absurd (hm.serving k' hk').2.1 hanswer
    · rw [hhost, hd2h]
      exact hm.acked
    · rw [hunread, hd2h]
      exact hm.unread
    · intro k' hk'
      rw [hh2d] at hk'
      by_cases hne : k' = k
      · rw [hne, hpc']; rfl
      · rw [hother k' hne]
        exact hm.answered k' hk'
    · rw [hover, hm.kept]
  | clear hpc hpc' hd2h hh2d hunread hover _ =>
    -- the core that clears the answer does not await one any more
    have hkeep : ∀ k', (s.core k').awaits = true → (s'.core k').awaits = true := by
      intro k' haw
      by_cases hne : k' = k
      · rw [hne, hpc] at haw
        cases haw
      · rwa [hother k' hne]
    refine ⟨?_, ?_, ?_, ?_, ?_, ?_⟩
    · intro k' hk'
      rw [hd2h] at hk'
      exact ⟨hkeep k' (hm.awaited k' hk').1, hh2d⟩
    · intro k' hk'
      rw [hhost] at hk'
      rw [hunread]
      exact ⟨hkeep k' (hm.serving k' hk').1, hh2d, (hm.serving k' hk').2.2⟩
    · rw [hhost, hd2h]
      exact hm.acked
    · rw [hunread, hd2h]
      exact hm.unread
    · intro k' hk'
      rw [hh2d] at hk'
      cases hk'
    · rw [hover, hm.kept]

/-- What a step of the host means to the mailbox. -/
inductive HostMove (cfg : Config C K) (s s' : State C K) : Prop where
  | idle : s.host.serving = none → s'.host.serving = none →
      s'.device_to_host = s.device_to_host → s'.host_to_device = s.host_to_device →
      s'.unread = s.unread → s'.written = s.written → s'.serviced = s.serviced →
      HostMove cfg s s'
  | load (k : K) : s.host = .load → s'.host = .ack k → s.device_to_host = some k →
      s'.device_to_host = s.device_to_host → s'.host_to_device = s.host_to_device →
      s'.unread = false → s'.written = s.written → s'.serviced = s.serviced →
      HostMove cfg s s'
  | ack (k : K) : s.host = .ack k → s'.host = .fetch k → s'.device_to_host = none →
      s'.host_to_device = s.host_to_device → s'.unread = s.unread →
      s'.written = s.written → s'.serviced = s.serviced → HostMove cfg s s'
  | fetch (k : K) (mem : SyscallMem K) : s.host = .fetch k →
      s'.host = .dispatch k mem.buffer → (s.buf k).syscall_mem = some mem →
      s'.device_to_host = s.device_to_host → s'.host_to_device = s.host_to_device →
      s'.unread = s.unread → s'.written = s.written → s'.serviced = s.serviced →
      HostMove cfg s s'
  | dispatch (k k' : K) (mem : SyscallMem K) : s.host = .dispatch k k' →
      s'.host = .notify k → (s.buf k).syscall_mem = some mem →
      s'.device_to_host = s.device_to_host → s'.host_to_device = s.host_to_device →
      s'.unread = s.unread → s'.serviced = s.serviced →
      s'.written = (if mem.number = SYS_WRITE then
        s.written ++ [(k, (s.buf k').bytes mem.length)] else s.written) →
      HostMove cfg s s'
  | notify (k : K) : s.host = .notify k → s'.host = .sleep →
      s'.device_to_host = (if cfg.answer = .device_to_host then some k
        else s.device_to_host) →
      s'.host_to_device = (if cfg.answer = .host_to_device then some k
        else s.host_to_device) →
      s'.unread = s.unread → s'.written = s.written → s'.serviced = some k →
      HostMove cfg s s'

theorem hostStep_move {busy : Bool} (hn : s.hostStep cfg busy = some s') :
    HostMove cfg s s' ∧ s'.overwritten = s.overwritten := by
  unfold State.hostStep at hn
  split at hn
  -- the five states in which the host serves a core
  case h_6 hpc =>
    split at hn
    · cases hn
    · rename_i k hd
      cases hn
      exact ⟨.load k hpc rfl hd rfl rfl rfl rfl rfl, rfl⟩
  case h_7 k hpc =>
    cases hn
    exact ⟨.ack k hpc rfl rfl rfl rfl rfl rfl, rfl⟩
  case h_8 k hpc =>
    split at hn
    · cases hn
    · rename_i mem hmem
      cases hn
      exact ⟨.fetch k mem hpc rfl hmem rfl rfl rfl rfl rfl, rfl⟩
  case h_9 k k' hpc =>
    split at hn
    · cases hn
    · rename_i mem hmem
      split at hn
      · rename_i hnr
        cases hn
        exact ⟨.dispatch k k' mem hpc rfl hmem rfl rfl rfl rfl (by simp [hnr]), rfl⟩
      · rename_i hnr
        cases hn
        exact ⟨.dispatch k k' mem hpc rfl hmem rfl rfl rfl rfl (by simp [hnr]), rfl⟩
  case h_10 k hpc =>
    split at hn
    · rename_i hanswer
      cases hn
      exact ⟨.notify k hpc rfl (by simp [hanswer]) (by simp [hanswer]) rfl rfl rfl, rfl⟩
    · rename_i hanswer
      cases hn
      exact ⟨.notify k hpc rfl (by simp [hanswer]) (by simp [hanswer]) rfl rfl rfl, rfl⟩
  -- in the others it waits or polls
  all_goals rename_i hpc
  all_goals try split at hn
  all_goals cases hn
  all_goals refine ⟨.idle (by rw [hpc]; rfl) ?_ rfl rfl rfl rfl rfl, rfl⟩
  all_goals rfl

/-- The same for a step that leaves the cores alone. -/
theorem MailInv.of_mailbox_same (hm : MailInv s) (hcore : s'.core = s.core)
    (hd2h : s'.device_to_host = s.device_to_host)
    (hh2d : s'.host_to_device = s.host_to_device) (hunread : s'.unread = s.unread)
    (hover : s'.overwritten = s.overwritten)
    (hserving : ∀ k, s'.host.serving = some k → s.host.serving = some k)
    (hacked : s'.host.acked = true → s.host.acked = true) : MailInv s' :=
  hm.of_alike (fun k => by rw [hcore]) (fun k => by rw [hcore]) hd2h hh2d hunread hover hserving
    hacked

theorem mailInv_host {busy : Bool} (hm : MailInv s) (hn : s.hostStep cfg busy = some s') :
    MailInv s' := by
  have hcore := (hostStep_frame hn).core
  obtain ⟨hmove, hover⟩ := hostStep_move hn
  have hkept : s'.overwritten = false := hover.trans hm.kept
  cases hmove with
  | idle hserving hserving' hd2h hh2d hunread hwritten hserviced =>
    apply hm.of_mailbox_same hcore hd2h hh2d hunread hover
    · intro k hk
      rw [hserving'] at hk
      cases hk
    · intro hacked
      rw [HostPc.acked_of_not_serving hserving'] at hacked
      cases hacked
  | load k hpc hpc' hd hd2h hh2d hunread hwritten hserviced =>
    -- the host takes up the request: its core awaits the answer
    refine ⟨?_, ?_, ?_, ?_, ?_, hkept⟩
    · simpa only [hcore, hd2h, hh2d] using hm.awaited
    · intro k' hk'
      rw [hpc'] at hk'
      cases hk'
      rw [hcore, hh2d]
      exact ⟨(hm.awaited k hd).1, (hm.awaited k hd).2, hunread⟩
    · intro hacked
      rw [hpc'] at hacked
      cases hacked
    · intro hun
      rw [hunread] at hun
      cases hun
    · simpa only [hcore, hh2d] using hm.answered
  | ack k hpc hpc' hd2h hh2d hunread hwritten hserviced =>
    have hserving := hm.serving k (by rw [hpc]; rfl)
    refine ⟨?_, ?_, fun _ => hd2h, ?_, ?_, hkept⟩
    · intro k' hk'
      rw [hd2h] at hk'
      cases hk'
    · intro k' hk'
      rw [hpc'] at hk'
      cases hk'
      simpa only [hcore, hh2d, hunread] using hserving
    · intro hun
      rw [hunread, hserving.2.2] at hun
      cases hun
    · simpa only [hcore, hh2d] using hm.answered
  | fetch k mem hpc hpc' hmem hd2h hh2d hunread hwritten hserviced =>
    apply hm.of_mailbox_same hcore hd2h hh2d hunread hover
    · rw [hpc, hpc']
      exact fun _ hk => hk
    · rw [hpc]
      exact fun _ => rfl
  | dispatch k k' mem hpc hpc' hmem hd2h hh2d hunread hserviced hwritten =>
    apply hm.of_mailbox_same hcore hd2h hh2d hunread hover
    · rw [hpc, hpc']
      exact fun _ hk => hk
    · rw [hpc]
      exact fun _ => rfl
  | notify k hpc hpc' hd2h hh2d hunread hwritten hserviced =>
    -- whichever word is set, the core it names still awaits the answer
    obtain ⟨hawaits, hnone, hread⟩ := hm.serving k (by rw [hpc]; rfl)
    have hclear := hm.acked (by rw [hpc]; rfl)
    refine ⟨?_, ?_, ?_, ?_, ?_, hkept⟩
    · intro k' hk'
      rw [hd2h, hclear] at hk'
      split at hk'
      · rename_i hanswer
        cases hk'
        rw [hcore, hh2d, hanswer]
        exact ⟨hawaits, hnone⟩
      · cases hk'
    · intro k' hk'
      rw [hpc'] at hk'
      cases hk'
    · intro hacked
      rw [hpc'] at hacked
      cases hacked
    · intro hun
      rw [hunread, hread] at hun
      cases hun
    · intro k' hk'
      rw [hh2d, hnone] at hk'
      split at hk'
      · cases hk'
        rw [hcore]
        exact CorePc.answerable_of_awaits hawaits
      · cases hk'

theorem mailInv_init {c : C} (hm : MailInv s) (hn : s.initStep c = some s') : MailInv s' := by
  have hframe := initStep_frame hn
  obtain ⟨hd2h, hh2d⟩ := hframe.mailbox
  obtain ⟨hunread, hover⟩ := hframe.observed
  apply hm.of_mailbox_same hframe.core hd2h hh2d hunread hover
  · rw [hframe.host]
    exact fun _ hk => hk
  · rw [hframe.host]
    exact id

/-! ## Section 3: Exclusion across clusters -/

/-- The clusters run `snrt_printf_init` and print, in any interleaving. -/
def clusterSystem (cfg : Config C K) : System (State C K) (Action C K) where
  init := fun s => Fresh s ∧ ∀ c, s.init c = .alloc
  next := next cfg

/-- One core at most is in the section, and no request has been
    overwritten before the host has read it. -/
structure Exclusive (s : State C K) : Prop where
  section_unique : ∀ k k', (s.core k).inSection = true → (s.core k').inSection = true → k = k'
  no_overwrite   : s.overwritten = false

theorem invs_fresh (hf : Fresh s) : MutexInv s ∧ MailInv s := by
  obtain ⟨hd2h, hh2d⟩ := hf.mailbox
  obtain ⟨hhost, _⟩ := hf.host
  obtain ⟨_, hunread, hover, _, _⟩ := hf.observed
  constructor
  · exact Mutex.Inv.of_outside (fun k => by rw [State.mutexView, hf.core k]; rfl) _ _
  · refine ⟨?_, ?_, ?_, ?_, ?_, hover⟩
    · simp [hd2h]
    · simp [hhost, HostPc.serving]
    · simp [hhost, HostPc.acked]
    · simp [hunread]
    · simp [hh2d]

theorem invs_next {a : Action C K} (hi : MutexInv s ∧ MailInv s) (hok : InitQuiet s a)
    (hn : next cfg s a = some s') : MutexInv s' ∧ MailInv s' := by
  obtain ⟨hmutex, hmail⟩ := hi
  cases a with
  | core k => exact ⟨mutexInv_core hmutex hn, mailInv_core hmutex hmail hn⟩
  | init c => exact ⟨mutexInv_init hmutex hok hn, mailInv_init hmail hn⟩
  | host busy => exact ⟨mutexInv_host hmutex hn, mailInv_host hmail hn⟩

/-- **Mutual exclusion across clusters**, for any clusters, cores and
    texts and for either service loop: in every run in which the stores of
    `snrt_printf_init` find nobody using the mutex. -/
theorem exclusive_of_init_quiet (cfg : Config C K) (s : State C K)
    (h : (clusterSystem cfg).ReachableUnder InitQuiet s) : Exclusive s := by
  have hinv : MutexInv s ∧ MailInv s := by
    refine h.invariant ?_ (fun s a s' hi hok hn => invs_next hi hok hn)
    intro s hs
    exact invs_fresh hs.1
  exact ⟨hinv.1.exclusive, hinv.2.kept⟩

/-- Two clusters of one core each, under `test_cluster`. -/
def twoClusters : Config (Fin 2) (Fin 2) where
  clusterOf := id
  clusterIds := [0, 1]
  answer := .device_to_host

/-- Both cores are to print an empty line. -/
def twoLines : State (Fin 2) (Fin 2) where
  core := fun _ => .putchar
  text := fun _ => ['\n']
  buf := fun _ => { size := 0, syscall_mem := none, data := fun _ => '\x00' }
  init := fun _ => .alloc
  mutexPtr := none
  lock := fun _ => false
  device_to_host := none
  host_to_device := none
  msip := false
  host := .top
  done := 0
  serviced := none
  unread := false
  overwritten := false
  flushed := []
  written := []

theorem twoLines_init : (clusterSystem twoClusters).init twoLines :=
  ⟨⟨fun _ => rfl, fun _ => rfl, ⟨rfl, rfl⟩, ⟨rfl, rfl⟩, ⟨rfl, rfl, rfl, rfl, rfl⟩⟩,
    fun _ => rfl⟩

/-- When both clusters have been initialised before the first one prints,
    core 0 is in the section and core 1 waits at the lock. -/
theorem twoLines_exclusive : ∃ s : State (Fin 2) (Fin 2),
    s.core 0 = .msip ∧ s.core 1 = .spin 1 ∧ Exclusive s := by
  have hs := System.reachableUnder_of_replay (clusterSystem twoClusters) InitQuiet twoLines
    ([.init 0, .init 1, .init 0, .init 1, .init 0, .init 1] ++
     List.replicate 6 (.core 0) ++ List.replicate 4 (.core 1))
    twoLines_init rfl
  exact ⟨_, rfl, rfl, exclusive_of_init_quiet twoClusters _ hs⟩

/-- When cluster 1 starts while core 0 prints, the pointer moves to the
    lock of cluster 1, which is free: core 1 enters the section as well
    and overwrites the request of core 0. -/
theorem twoLines_overwritten :
    ¬ ∀ s, (clusterSystem twoClusters).Reachable s → Exclusive s := by
  intro hall
  have hs := System.reachable_of_exec (clusterSystem twoClusters) twoLines
    (List.replicate 3 (.init 0) ++ List.replicate 6 (.core 0) ++
     List.replicate 3 (.init 1) ++ List.replicate 6 (.core 1))
    twoLines_init rfl
  exact absurd ((hall _ hs).section_unique 0 1 rfl rfl) (by decide)

end Putc
