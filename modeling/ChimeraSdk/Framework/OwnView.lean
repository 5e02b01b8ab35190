import ChimeraSdk.Framework.Cluster

/-! # What One Core Alone Changes

    A part of the memory that only one core changes looks to that core as if
    it ran by itself, however the others run.  So what it computes from that
    part is known beforehand, and its action may be replaced by one that
    computes nothing.

    * **Own view**: wherever a run stands, the part is what the actions
      behind the core have made of it.
    * **Replacing an action**: an action may be replaced by others that do
      the same wherever a run reaches it. -/

open LTS

namespace Cluster

variable {n : Nat} {M E V : Type}

/-! ## Section 1: The own view -/

/-- The actions of a core, without the tasks it hands on. -/
def actions : List (Op M E) → List (M → M)
  | [] => []
  | .act f :: ops => f :: actions ops
  | _ :: ops => actions ops

@[simp] theorem actions_append (ops ops' : List (Op M E)) :
    actions (ops ++ ops') = actions ops ++ actions ops' := by
  induction ops with
  | nil => rfl
  | cons op ops ih =>
    cases op with
    | act f => exact congrArg (f :: ·) ih
    | start e fs => exact ih
    | wait e => exact ih
    | barrier => exact ih

theorem mem_actions {f : M → M} {ops : List (Op M E)} (h : .act f ∈ ops) : f ∈ actions ops := by
  obtain ⟨before, after, rfl⟩ := List.append_of_mem h
  rw [actions_append]
  exact List.mem_append_right _ List.mem_cons_self

/-- What `view` shows is changed by the actions of the core `k` alone, and
    what they make of it depends on nothing else. -/
structure Own (view : M → V) (code : Code n M E) (k : Fin n) : Prop where
  others : ∀ k', k' ≠ k → ∀ f ∈ work (code k'), ∀ m, view (f m) = view m
  started : ∀ e fs, Op.start e fs ∈ code k → ∀ f ∈ fs, ∀ m, view (f m) = view m
  acts : ∀ f ∈ actions (code k), ∀ m m', view m = view m' → view (f m) = view (f m')

section OwnView

variable {view : M → V} {code : Code n M E} {k : Fin n} {m : M} {s s' : State n M E}

/-- Where a run stands: the core is behind `before`, and the tasks that are
    left, of engines or of other cores, do not change what it sees. -/
structure Seen (view : M → V) (code : Code n M E) (k : Fin n) (m : M) (s : State n M E) : Prop where
  behind : ∃ before, code k = before ++ s.rest k ∧
    view s.mem = view (perform (actions before) m)
  pending : ∀ t ∈ s.pending, ∀ m, view (t.run m) = view m
  others : ∀ k', k' ≠ k → ∀ f ∈ work (s.rest k'), ∀ m, view (f m) = view m

/-- The core `k` itself moves on. -/
theorem Seen.self (hown : Own view code k) (h : Seen view code k m s) (hn : CoreStep s k s') :
    Seen view code k m s' := by
  obtain ⟨before, hcode, hview⟩ := h.behind
  have hothers : ∀ (ops : List (Op M E)), ∀ k', k' ≠ k →
      ∀ f ∈ work (Function.update s.rest k ops k'), ∀ m, view (f m) = view m := by
    intro ops k' hne
    rw [Function.update_of_ne hne]
    exact h.others k' hne
  have hbehind : ∀ (op : Op M E) (ops : List (Op M E)), s.rest k = op :: ops →
      code k = before ++ [op] ++ Function.update s.rest k ops k := by
    intro op ops hrest
    rw [Function.update_self, List.append_assoc, hcode, hrest]
    rfl
  have hnext : ∀ (op : Op M E) (ops : List (Op M E)), s.rest k = op :: ops → op ∈ code k := by
    intro op ops hrest
    rw [hcode, hrest]
    exact List.mem_append_right _ List.mem_cons_self
  match hn with
  | .act hrest =>
    refine ⟨⟨_, hbehind _ _ hrest, ?_⟩, h.pending, hothers _⟩
    rw [actions_append, perform_append]
    exact hown.acts _ (mem_actions (hnext _ _ hrest)) _ _ hview
  | .start hrest =>
    refine ⟨⟨_, hbehind _ _ hrest, ?_⟩, ?_, hothers _⟩
    · rw [actions_append, perform_append]
      exact hview
    · intro t ht
      obtain hold | hnew := List.mem_append.mp ht
      · exact h.pending t hold
      · obtain ⟨f, hf, rfl⟩ := List.mem_map.mp hnew
        exact hown.started _ _ (hnext _ _ hrest) f hf
  | .wait hrest _ =>
    refine ⟨⟨_, hbehind _ _ hrest, ?_⟩, h.pending, hothers _⟩
    rw [actions_append, perform_append]
    exact hview

/-- Another core moves on. -/
theorem Seen.other (h : Seen view code k m s) {k' : Fin n} (hne : k' ≠ k)
    (hn : CoreStep s k' s') : Seen view code k m s' := by
  obtain ⟨before, hcode, hview⟩ := h.behind
  have hothers : ∀ (op : Op M E) (ops : List (Op M E)), s.rest k' = op :: ops →
      ∀ k'', k'' ≠ k → ∀ f ∈ work (Function.update s.rest k' ops k''), ∀ m, view (f m) = view m :=
    fun op ops hrest k'' hne' f hf => h.others k'' hne' f (work_of_work_update hrest hf)
  have hbehind : ∀ ops : List (Op M E), code k = before ++ Function.update s.rest k' ops k := by
    intro ops
    rw [Function.update_of_ne hne.symm]
    exact hcode
  match hn with
  | .act hrest =>
    refine ⟨⟨before, hbehind _, ?_⟩, h.pending, hothers _ _ hrest⟩
    rw [← hview]
    apply h.others k' hne
    rw [hrest]
    exact List.mem_cons_self
  | .start hrest =>
    refine ⟨⟨before, hbehind _, hview⟩, ?_, hothers _ _ hrest⟩
    intro t ht
    obtain hold | hnew := List.mem_append.mp ht
    · exact h.pending t hold
    · obtain ⟨f, hf, rfl⟩ := List.mem_map.mp hnew
      apply h.others k' hne
      rw [hrest]
      exact List.mem_append_left _ hf
  | .wait hrest _ => exact ⟨⟨before, hbehind _, hview⟩, h.pending, hothers _ _ hrest⟩

/-- The engines do not change what the core sees. -/
theorem Seen.engine (h : Seen view code k m s) {i : Nat} (hn : engineStep s i = some s') :
    Seen view code k m s' := by
  obtain ⟨hi, rfl⟩ := engineStep_cases hn
  obtain ⟨before, hcode, hview⟩ := h.behind
  refine ⟨⟨before, hcode, ?_⟩, ?_, h.others⟩
  · exact (h.pending _ (List.getElem_mem hi) _).trans hview
  · exact fun t ht => h.pending t ((List.eraseIdx_sublist ..).subset ht)

theorem Seen.sync (h : Seen view code k m s) (hn : syncStep s = some s') :
    Seen view code k m s' := by
  obtain ⟨hall, rfl⟩ := syncStep_cases hn
  obtain ⟨before, hcode, hview⟩ := h.behind
  refine ⟨⟨before ++ [.barrier], ?_, ?_⟩, h.pending, ?_⟩
  · rw [hcode, rest_of_atBarrier (hall k), List.append_assoc]
    rfl
  · rw [actions_append, perform_append]
    exact hview
  · intro k' hne f hf
    apply h.others k' hne
    rw [rest_of_atBarrier (hall k')]
    exact hf

variable [DecidableEq E]

end OwnView

/-! ## Section 2: Replacing an action -/

section Replacing

variable [DecidableEq E]

variable {code code' : Code n M E} {k : Fin n} {m m' : M} {s s' : State n M E}
  {f : M → M} {fs : List (M → M)} {post : List (Op M E)}

/-- What is left of the code, and of the code with `fs` in place of the
    action `f` in front of `post`. -/
inductive Replaced (f : M → M) (fs : List (M → M)) (post : List (Op M E)) :
    List (Op M E) → List (Op M E) → Prop where
  | ahead (ops : List (Op M E)) :
      Replaced f fs post (ops ++ .act f :: post) (ops ++ (fs.map .act ++ post))
  | behind (ops : List (Op M E)) : Replaced f fs post ops ops

omit [DecidableEq E] in
theorem CoreStep.exists_op (h : CoreStep s k s') : ∃ op ops, s.rest k = op :: ops := by
  match h with
  | .act h => exact ⟨_, _, h⟩
  | .start h => exact ⟨_, _, h⟩
  | .wait h _ => exact ⟨_, _, h⟩

omit [DecidableEq E] in
theorem CoreStep.of_act (hrest : s.rest k = .act f :: post) (h : CoreStep s k s') :
    s' = { s with rest := Function.update s.rest k post, mem := f s.mem } := by
  match h with
  | .act h =>
    obtain ⟨hop, rfl⟩ := List.cons.inj (h.symm.trans hrest)
    obtain rfl := Op.act.inj hop
    rfl
  | .start h => cases h.symm.trans hrest
  | .wait h _ => cases h.symm.trans hrest

/-- A core may go through its actions without the others moving. -/
theorem Reaches.acts (h : Reaches code m s) (hrest : s.rest k = fs.map .act ++ post) :
    Reaches code m { s with rest := Function.update s.rest k post, mem := perform fs s.mem } := by
  induction fs generalizing s with
  | nil =>
    have hsame : Function.update s.rest k post = s.rest := by
      rw [Function.update_eq_iff]
      exact ⟨hrest.symm, fun _ _ => rfl⟩
    rw [hsame]
    exact h
  | cons f fs ih =>
    have hstep : coreStep s k = some
        { s with rest := Function.update s.rest k (fs.map .act ++ post), mem := f s.mem } := by
      simp only [coreStep, hrest, List.map_cons, List.cons_append]
    have hrun := ih (h.next (l := .core k) hstep) (Function.update_self ..)
    simp only [Function.update_idem] at hrun
    exact hrun

/-- The run of the code with the other actions keeps up with the run of the
    code. -/
def KeepsUp (code code' : Code n M E) (k : Fin n) (m : M) (f : M → M) (fs : List (M → M))
    (post : List (Op M E)) (s : State n M E) : Prop :=
  Reaches code m s ∧ ∃ ops', Replaced f fs post (s.rest k) ops' ∧
    Reaches code' m { s with rest := Function.update s.rest k ops' }

theorem KeepsUp.self (h : KeepsUp code code' k m f fs post s) (hn : CoreStep s k s')
    (hnext : Reaches code m s')
    (hsame : s.rest k = .act f :: post → perform fs s.mem = f s.mem) :
    KeepsUp code code' k m f fs post s' := by
  obtain ⟨_, ops', hrel, hrun⟩ := h
  refine ⟨hnext, ?_⟩
  -- a step that both of them take
  have hboth : ∀ (op : Op M E) (ops ops' : List (Op M E)), s.rest k = op :: ops →
      Replaced f fs post ops ops' →
      Reaches code' m { s with rest := Function.update s.rest k (op :: ops') } →
      ∃ ops', Replaced f fs post (s'.rest k) ops' ∧
        Reaches code' m { s' with rest := Function.update s'.rest k ops' } := by
    intro op ops ops' hrest hrel hrun
    obtain ⟨hafter, hstep⟩ := hn.head hrest (Function.update_self k (op :: ops') s.rest)
    refine ⟨ops', ?_, ?_⟩
    · rw [hafter, Function.update_self]
      exact hrel
    · rw [hafter, Function.update_idem]
      rw [Function.update_idem] at hstep
      exact hrun.next (l := .core k) hstep
  generalize hrest : s.rest k = rest at hrel
  cases hrel with
  | ahead ops =>
    cases ops with
    | nil =>
      -- the action, where the other ones do the same
      have hdone := hrun.acts (k := k) (Function.update_self ..)
      obtain rfl := hn.of_act hrest
      refine ⟨post, ?_, ?_⟩
      · show Replaced f fs post (Function.update s.rest k post k) post
        rw [Function.update_self]
        exact .behind post
      · rw [← hsame hrest]
        simp only [Function.update_idem] at hdone ⊢
        exact hdone
    | cons op ops => exact hboth op _ _ hrest (.ahead ops) hrun
  | behind =>
    obtain ⟨op, ops, hops⟩ := hn.exists_op
    obtain rfl := hrest.symm.trans hops
    exact hboth op ops ops hops (.behind ops) hrun

theorem KeepsUp.other (h : KeepsUp code code' k m f fs post s) {k' : Fin n} (hne : k' ≠ k)
    (hn : CoreStep s k' s') (hnext : Reaches code m s') : KeepsUp code code' k m f fs post s' := by
  obtain ⟨_, ops', hrel, hrun⟩ := h
  obtain ⟨op, ops, hrest⟩ := hn.exists_op
  have hrest' : Function.update s.rest k ops' k' = op :: ops := by
    rw [Function.update_of_ne hne, hrest]
  obtain ⟨hafter, hstep⟩ := hn.head hrest hrest'
  refine ⟨hnext, ops', ?_, ?_⟩
  · rw [hafter, Function.update_of_ne hne.symm]
    exact hrel
  · rw [hafter, Function.update_comm hne]
    exact hrun.next (l := .core k') hstep

omit [DecidableEq E] in
/-- In front of the end stands no action, -/
theorem Replaced.eq_nil {ops ops' : List (Op M E)} (h : Replaced f fs post ops ops')
    (hnil : ops = []) : ops' = [] := by
  cases h with
  | ahead ops => exact absurd hnil (by simp)
  | behind => exact hnil

omit [DecidableEq E] in
/-- and none at a barrier. -/
theorem Replaced.atBarrier {ops ops' : List (Op M E)} (h : Replaced f fs post ops ops')
    (hbar : atBarrier ops = true) :
    atBarrier ops' = true ∧ Replaced f fs post ops.tail ops'.tail := by
  cases h with
  | ahead ops =>
    cases ops with
    | nil => cases hbar
    | cons op ops => exact ⟨hbar, .ahead ops⟩
  | behind => exact ⟨hbar, .behind _⟩

theorem KeepsUp.sync (h : KeepsUp code code' k m f fs post s) (hn : syncStep s = some s')
    (hnext : Reaches code m s') : KeepsUp code code' k m f fs post s' := by
  obtain ⟨_, ops', hrel, hrun⟩ := h
  obtain ⟨hall, rfl⟩ := syncStep_cases hn
  obtain ⟨hbar, htail⟩ := hrel.atBarrier (hall k)
  have hall' : ∀ k', atBarrier (Function.update s.rest k ops' k') = true := by
    intro k'
    by_cases hk : k' = k
    · rw [hk, Function.update_self]
      exact hbar
    · rw [Function.update_of_ne hk]
      exact hall k'
  have hafter : (fun k' => (Function.update s.rest k ops' k').tail) =
      Function.update (fun k' => (s.rest k').tail) k ops'.tail := by
    funext k'
    by_cases hk : k' = k
    · rw [hk, Function.update_self, Function.update_self]
    · rw [Function.update_of_ne hk, Function.update_of_ne hk]
  refine ⟨hnext, ops'.tail, htail, ?_⟩
  rw [← hafter]
  exact hrun.next (l := .sync) (syncStep_drop (s := s) hall')

/-- **Replacing an action**: where the actions in its place do the same, in
    every state in which a run reaches it, every run of the code ends as some
    run of the code with them. -/
theorem Ends.replace {pre : List (Op M E)} (hcode : code k = pre ++ .act f :: post)
    (hcode' : code' = Function.update code k (pre ++ (fs.map .act ++ post)))
    (hsame : ∀ s, Reaches code m s → s.rest k = .act f :: post → perform fs s.mem = f s.mem)
    (h : Ends code m m') : Ends code' m m' := by
  obtain ⟨s, hs, hfin, rfl⟩ := h
  have hkeeps : KeepsUp code code' k m f fs post s := by
    apply hs.invariant
    · refine ⟨.init rfl, pre ++ (fs.map .act ++ post), ?_, ?_⟩
      · show Replaced f fs post (code k) _
        rw [hcode]
        exact .ahead pre
      · rw [hcode']
        exact .init rfl
    · intro s l s' h hn
      have hnext := h.1.next hn
      match l with
      | .core k' =>
        have hstep := coreStep_cases hn
        by_cases hk : k' = k
        · subst hk
          exact h.self hstep hnext (hsame s h.1)
        · exact h.other hk hstep hnext
      | .engine i =>
        obtain ⟨_, ops', hrel, hrun⟩ := h
        obtain ⟨hrest, hstep⟩ := engineStep_drop (Function.update s.rest k ops') hn
        refine ⟨hnext, ops', hrest ▸ hrel, ?_⟩
        rw [hrest]
        exact hrun.next (l := .engine i) hstep
      | .sync => exact h.sync hn hnext
  obtain ⟨_, ops', hrel, hrun⟩ := hkeeps
  refine ⟨_, hrun, ⟨?_, hfin.2⟩, rfl⟩
  intro k'
  by_cases hk : k' = k
  · subst hk
    show Function.update s.rest k' ops' k' = []
    rw [Function.update_self]
    exact hrel.eq_nil (hfin.1 k')
  · show Function.update s.rest k ops' k' = []
    rw [Function.update_of_ne hk]
    exact hfin.1 k'

end Replacing

end Cluster
