/-! # Executable Labelled Transition Systems

    The systems of this development are small concurrent machines: a set
    of initial states and a partial step function.  The label says who
    moves (and resolves what the environment chooses), so a step is a
    computation and a concrete run can be replayed by evaluation.

    * **Reachability under a guard**: the states reached by the runs all
      of whose steps `s —l→ s'` satisfy `ok s l`.  Plain reachability is
      the instance with the trivial guard.
    * **Invariant rule**: an inductive invariant holds in every state such
      a run reaches.
    * **Replay**: a list of labels that executes proves reachability of
      the state it ends in.
    * **Leads-to**: a deterministic run, one label over and over, arrives;
      a loop arrives when a measure decreases with every pass. -/

namespace LTS

universe u v

/-- A labelled transition system whose steps are computed: `next s l` is
    the state after the step `l`, or `none` when `l` is not enabled. -/
structure System (State : Type u) (Label : Type v) where
  init : State → Prop
  next : State → Label → Option State

namespace System

variable {State : Type u} {Label : Type v} (sys : System State Label)

/-! ### Reachability -/

/-- The states reached by runs whose every step satisfies `ok`. -/
inductive ReachableUnder (ok : State → Label → Prop) : State → Prop where
  | init : ∀ {s}, sys.init s → ReachableUnder ok s
  | step : ∀ {s s'} (l : Label), ReachableUnder ok s → ok s l →
      sys.next s l = some s' → ReachableUnder ok s'

/-- The states reached by any run. -/
def Reachable : State → Prop :=
  sys.ReachableUnder (fun _ _ => True)

/-- The runs that start in a given state. -/
def startingAt (s₀ : State) : System State Label :=
  { sys with init := fun s => s = s₀ }

variable {sys} {ok : State → Label → Prop}

theorem ReachableUnder.mono {ok' : State → Label → Prop} {s : State}
    (h : sys.ReachableUnder ok s) (himp : ∀ s l, ok s l → ok' s l) :
    sys.ReachableUnder ok' s := by
  induction h with
  | init hi => exact .init hi
  | step l _ hok hn ih => exact .step l ih (himp _ _ hok) hn

theorem ReachableUnder.reachable {s : State} (h : sys.ReachableUnder ok s) :
    sys.Reachable s :=
  h.mono (fun _ _ _ => trivial)

theorem Reachable.next {s s' : State} {l : Label} (h : sys.Reachable s)
    (hn : sys.next s l = some s') : sys.Reachable s' :=
  ReachableUnder.step l h trivial hn

/-- When the guard holds of every step of a guarded run, all runs are
    guarded. -/
theorem Reachable.under {s : State} (h : sys.Reachable s)
    (hok : ∀ s l s', sys.ReachableUnder ok s → sys.next s l = some s' → ok s l) :
    sys.ReachableUnder ok s := by
  induction h with
  | init hi => exact .init hi
  | step l _ _ hn ih => exact .step l ih (hok _ l _ ih hn) hn

/-! ### Invariants -/

/-- **Invariant rule**: a property of the initial states that every step
    satisfying the guard preserves holds in every state reached. -/
theorem ReachableUnder.invariant {inv : State → Prop}
    (hinit : ∀ s, sys.init s → inv s)
    (hstep : ∀ s l s', inv s → ok s l → sys.next s l = some s' → inv s')
    {s : State} (h : sys.ReachableUnder ok s) : inv s := by
  induction h with
  | init hi => exact hinit _ hi
  | step l _ hok hn ih => exact hstep _ l _ ih hok hn

/-- The invariant rule for unguarded runs. -/
theorem Reachable.invariant {inv : State → Prop}
    (hinit : ∀ s, sys.init s → inv s)
    (hstep : ∀ s l s', inv s → sys.next s l = some s' → inv s')
    {s : State} (h : sys.Reachable s) : inv s :=
  ReachableUnder.invariant hinit (fun s l s' hs _ hn => hstep s l s' hs hn) h

/-- The invariant rule for the runs from one state. -/
theorem ReachableUnder.invariant_from {inv : State → Prop} {s₀ s : State} (h₀ : inv s₀)
    (hstep : ∀ s l s', inv s → ok s l → sys.next s l = some s' → inv s')
    (h : (sys.startingAt s₀).ReachableUnder ok s) : inv s :=
  @ReachableUnder.invariant _ _ (sys.startingAt s₀) ok inv (fun _ hs => hs ▸ h₀) hstep s h

/-! ### Replaying runs -/

variable (sys) in
/-- Executes a list of labels, checking the guard before every step. -/
def replay (ok : State → Label → Prop) [∀ s l, Decidable (ok s l)] :
    State → List Label → Option State
  | s, [] => some s
  | s, l :: ls =>
      if ok s l then (sys.next s l).bind (fun s' => replay ok s' ls) else none

variable (sys) in
/-- Executes a list of labels. -/
def exec : State → List Label → Option State :=
  sys.replay (fun _ _ => True)

theorem replay_reachableUnder [∀ s l, Decidable (ok s l)] (ls : List Label) {s s' : State}
    (hs : sys.ReachableUnder ok s) (h : sys.replay ok s ls = some s') :
    sys.ReachableUnder ok s' := by
  induction ls generalizing s with
  | nil =>
    simp only [replay, Option.some.injEq] at h
    exact h ▸ hs
  | cons l ls ih =>
    simp only [replay] at h
    split at h
    · rename_i hok
      obtain ⟨t, hn, ht⟩ := Option.bind_eq_some_iff.mp h
      exact ih (.step l hs hok hn) ht
    · cases h

variable (sys) in
/-- A run replayed from a given state, under a guard. -/
theorem reachableUnder_of_replay (ok : State → Label → Prop) [∀ s l, Decidable (ok s l)]
    (s : State) (ls : List Label) {s' : State} (hs : sys.init s)
    (h : sys.replay ok s ls = some s') : sys.ReachableUnder ok s' :=
  replay_reachableUnder ls (.init hs) h

theorem exec_reachable (ls : List Label) {s s' : State} (hs : sys.Reachable s)
    (h : sys.exec s ls = some s') : sys.Reachable s' :=
  replay_reachableUnder ls hs h

variable (sys) in
/-- A run replayed from a given state. -/
theorem reachable_of_exec (s : State) (ls : List Label) {s' : State} (hs : sys.init s)
    (h : sys.exec s ls = some s') : sys.Reachable s' :=
  exec_reachable ls (.init hs) h

/-- A run replayed with labels that the guard allows in every state. -/
theorem ReachableUnder.exec (ls : List Label) (hok : ∀ l ∈ ls, ∀ s, ok s l) {s s' : State}
    (hs : sys.ReachableUnder ok s) (h : sys.exec s ls = some s') : sys.ReachableUnder ok s' := by
  induction ls generalizing s with
  | nil =>
    obtain rfl := Option.some.inj h
    exact hs
  | cons l ls ih =>
    rw [System.exec, replay, if_pos trivial] at h
    obtain ⟨t, hn, ht⟩ := Option.bind_eq_some_iff.mp h
    have hnext : sys.ReachableUnder ok t := .step l hs (hok l List.mem_cons_self s) hn
    exact ih (fun l' hl' => hok l' (List.mem_cons_of_mem l hl')) hnext ht

@[simp] theorem exec_nil (s : State) : sys.exec s [] = some s := rfl

theorem exec_cons (s : State) (l : Label) (ls : List Label) :
    sys.exec s (l :: ls) = (sys.next s l).bind (fun s' => sys.exec s' ls) := by
  simp [exec, replay]

/-! ### Runs of one label -/

variable (sys) in
/-- Repeating the step `l` leads from `s` to a state that satisfies `Q`. -/
def LeadsTo (l : Label) (s : State) (Q : State → Prop) : Prop :=
  ∃ n s', sys.exec s (List.replicate n l) = some s' ∧ Q s'

namespace LeadsTo

variable {l : Label} {s s' : State} {Q R inv : State → Prop}

theorem here (h : Q s) : sys.LeadsTo l s Q := ⟨0, s, rfl, h⟩

theorem step (hn : sys.next s l = some s') (h : sys.LeadsTo l s' Q) : sys.LeadsTo l s Q := by
  obtain ⟨n, t, hexec, hQ⟩ := h
  refine ⟨n + 1, t, ?_, hQ⟩
  rw [List.replicate_succ, exec_cons, hn]
  exact hexec

/-- **Transitivity**: what leads to states that lead to `R` leads to `R`. -/
theorem trans (h : sys.LeadsTo l s Q) (hQ : ∀ s', Q s' → sys.LeadsTo l s' R) :
    sys.LeadsTo l s R := by
  obtain ⟨n, t, hexec, ht⟩ := h
  induction n generalizing s with
  | zero =>
    obtain rfl := Option.some.inj hexec
    exact hQ s ht
  | succ n ih =>
    rw [List.replicate_succ, exec_cons] at hexec
    obtain ⟨s', hn, hrest⟩ := Option.bind_eq_some_iff.mp hexec
    exact .step hn (ih hrest)

/-- **Invariant strengthening**: what the step preserves holds at the end
    when it holds at the start. -/
theorem strengthen (h : sys.LeadsTo l s Q) (hs : inv s)
    (hstep : ∀ s s', inv s → sys.next s l = some s' → inv s') :
    sys.LeadsTo l s (fun s' => Q s' ∧ inv s') := by
  obtain ⟨n, t, hexec, ht⟩ := h
  induction n generalizing s with
  | zero =>
    obtain rfl := Option.some.inj hexec
    exact .here ⟨ht, hs⟩
  | succ n ih =>
    rw [List.replicate_succ, exec_cons] at hexec
    obtain ⟨s', hn, hrest⟩ := Option.bind_eq_some_iff.mp hexec
    exact .step hn (ih (hstep s s' hs hn) hrest)

/-- **Loop rule**: when every pass from a state of the invariant leads to
    `Q`, or back to the invariant with a smaller measure, the invariant
    leads to `Q`. -/
theorem of_measure (μ : State → Nat)
    (hpass : ∀ s, inv s → sys.LeadsTo l s (fun s' => Q s' ∨ (inv s' ∧ μ s' < μ s)))
    (hs : inv s) : sys.LeadsTo l s Q := by
  induction hμ : μ s using Nat.strongRecOn generalizing s with
  | ind n ih =>
    apply (hpass s hs).trans
    intro s' hs'
    obtain hQ | ⟨hinv, hlt⟩ := hs'
    · exact .here hQ
    · exact ih (μ s') (hμ ▸ hlt) hinv rfl

end LeadsTo

/-! ### Runs that end -/

variable (sys) in
/-- No step is enabled. -/
def Stuck (s : State) : Prop := ∀ l, sys.next s l = none

variable (sys) in
/-- Every run from `s` ends: their lengths are bounded. -/
def Terminates (s : State) : Prop :=
  ∃ n, ∀ ls s', sys.exec s ls = some s' → ls.length ≤ n

/-- **Bounded runs**: when every step from a state satisfying an inductive
    invariant decreases a measure, the measure bounds the runs from
    there. -/
theorem terminates_of_measure {inv : State → Prop} (μ : State → Nat)
    (hstep : ∀ s l s', inv s → sys.next s l = some s' → inv s' ∧ μ s' < μ s)
    {s : State} (hs : inv s) : sys.Terminates s := by
  refine ⟨μ s, ?_⟩
  intro ls
  induction ls generalizing s with
  | nil => intro s' _; exact Nat.zero_le _
  | cons l ls ih =>
    intro s' h
    rw [exec_cons] at h
    obtain ⟨t, hn, ht⟩ := Option.bind_eq_some_iff.mp h
    obtain ⟨hinv, hlt⟩ := hstep s l t hs hn
    have := ih hinv s' ht
    rw [List.length_cons]
    omega

end System

end LTS
