import ChimeraSdk.Framework.System
import Mathlib.Algebra.BigOperators.Fin
import Mathlib.Algebra.Order.BigOperators.Group.Finset

/-! # Cores, Engines and a Barrier

    A cluster is a few cores over one memory, engines that work for them,
    and a barrier.  A core hands tasks to an engine and goes on.  The
    engine does the tasks it has one at a time, in any order and whenever
    it likes, and only a core that has waited for it knows that they are
    done.  The barrier lets the cores pass once all of them have arrived.

    * **Reading in turn**: every task is done where it is started, and one
      core runs after the other.
    * **Commuting work**: when whatever may overlap commutes, every run
      ends with the memory of the reading in turn.
    * **Splitting**: a run across a barrier is a run up to it, followed by
      a run from there.
    * **Ending**: runs end, and where they end nothing is left to do.
    * **Any order**: tasks started without a wait in between may be done in
      any order, and runs of two parts make a run of both. -/

open LTS

namespace Cluster

/-! ## Section 1: The machine -/

/-- What a core does next. -/
inductive Op (M E : Type) where
  | act (f : M → M)
  | start (e : E) (tasks : List (M → M))
  | wait (e : E)
  | barrier

/-- A task that an engine has still to do, and the core it works for. -/
structure Task (n : Nat) (M E : Type) where
  owner : Fin n
  engine : E
  run : M → M

abbrev Code (n : Nat) (M E : Type) : Type := Fin n → List (Op M E)

structure State (n : Nat) (M E : Type) where
  rest : Code n M E
  mem : M
  pending : List (Task n M E)

/-- Who moves: a core, an engine with the task at a place of the list, or
    all cores together. -/
inductive Label (n : Nat) where
  | core (k : Fin n)
  | engine (i : Nat)
  | sync
  deriving DecidableEq, Repr

variable {n : Nat} {M E : Type}

def Op.isBarrier : Op M E → Bool
  | .barrier => true
  | _ => false

/-- The core has arrived at a barrier. -/
def atBarrier : List (Op M E) → Bool
  | op :: _ => op.isBarrier
  | [] => false

def engineStep (s : State n M E) (i : Nat) : Option (State n M E) :=
  s.pending[i]?.map fun t => { s with mem := t.run s.mem, pending := s.pending.eraseIdx i }

def syncStep (s : State n M E) : Option (State n M E) :=
  if ∀ k, atBarrier (s.rest k) = true then some { s with rest := fun k => (s.rest k).tail }
  else none

/-- The cores are about to run their code, and the engines have no work. -/
def initial (code : Code n M E) (m : M) : State n M E where
  rest := code
  mem := m
  pending := []

/-- Cores and engines have done all they had to do. -/
def Finished (s : State n M E) : Prop := (∀ k, s.rest k = []) ∧ s.pending = []

theorem engineStep_cases {s s' : State n M E} {i : Nat} (h : engineStep s i = some s') :
    ∃ hi : i < s.pending.length,
      s' = { s with mem := s.pending[i].run s.mem, pending := s.pending.eraseIdx i } := by
  obtain ⟨t, ht, rfl⟩ := Option.map_eq_some_iff.mp h
  obtain ⟨hi, rfl⟩ := List.getElem?_eq_some_iff.mp ht
  exact ⟨hi, rfl⟩

theorem syncStep_cases {s s' : State n M E} (h : syncStep s = some s') :
    (∀ k, atBarrier (s.rest k) = true) ∧ s' = { s with rest := fun k => (s.rest k).tail } := by
  unfold syncStep at h
  split at h
  · next hall => exact ⟨hall, (Option.some.inj h).symm⟩
  · cases h

theorem rest_of_atBarrier {ops : List (Op M E)} (h : atBarrier ops = true) :
    ops = .barrier :: ops.tail := by
  match ops, h with
  | .barrier :: _, _ => rfl

variable [DecidableEq E]

def coreStep (s : State n M E) (k : Fin n) : Option (State n M E) :=
  match s.rest k with
  | .act f :: ops => some { s with rest := Function.update s.rest k ops, mem := f s.mem }
  | .start e tasks :: ops =>
      some { s with
        rest := Function.update s.rest k ops
        pending := s.pending ++ tasks.map (fun f => ⟨k, e, f⟩) }
  | .wait e :: ops =>
      if s.pending.all (fun t => t.engine ≠ e) then
        some { s with rest := Function.update s.rest k ops }
      else none
  | _ => none

/-- The runs of a cluster. -/
def system : System (State n M E) (Label n) where
  init := fun s => s.pending = []
  next := fun s l =>
    match l with
    | .core k => coreStep s k
    | .engine i => engineStep s i
    | .sync => syncStep s

/-- The states that runs of the code reach from a memory. -/
def Reaches (code : Code n M E) (m : M) (s : State n M E) : Prop :=
  ((system).startingAt (initial code m)).Reachable s

/-- Some run of the code from `m` ends with `m'`. -/
def Ends (code : Code n M E) (m m' : M) : Prop :=
  ∃ s, Reaches code m s ∧ Finished s ∧ s.mem = m'

theorem Reaches.invariant {code : Code n M E} {m : M} {inv : State n M E → Prop}
    {s : State n M E} (hs : Reaches code m s) (h₀ : inv (initial code m))
    (hstep : ∀ s l s', inv s → system.next s l = some s' → inv s') : inv s :=
  System.ReachableUnder.invariant_from h₀ (fun s l s' hi _ hn => hstep s l s' hi hn) hs

/-- What a step of a core does. -/
inductive CoreStep (s : State n M E) (k : Fin n) : State n M E → Prop where
  | act {f : M → M} {ops : List (Op M E)} : s.rest k = .act f :: ops →
      CoreStep s k { s with rest := Function.update s.rest k ops, mem := f s.mem }
  | start {e : E} {tasks : List (M → M)} {ops : List (Op M E)} :
      s.rest k = .start e tasks :: ops →
      CoreStep s k { s with
        rest := Function.update s.rest k ops
        pending := s.pending ++ tasks.map (fun f => ⟨k, e, f⟩) }
  | wait {e : E} {ops : List (Op M E)} : s.rest k = .wait e :: ops →
      (∀ t ∈ s.pending, t.engine ≠ e) →
      CoreStep s k { s with rest := Function.update s.rest k ops }

theorem coreStep_cases {s s' : State n M E} {k : Fin n} (h : coreStep s k = some s') :
    CoreStep s k s' := by
  unfold coreStep at h
  split at h
  · next hrest =>
    obtain rfl := Option.some.inj h
    exact .act hrest
  · next hrest =>
    obtain rfl := Option.some.inj h
    exact .start hrest
  · next hrest =>
    split at h
    · next hall =>
      obtain rfl := Option.some.inj h
      apply CoreStep.wait hrest
      intro t ht
      exact of_decide_eq_true (List.all_eq_true.mp hall t ht)
    · cases h
  · cases h

/-! ## Section 2: Doing tasks in a row -/

/-- The tasks of a list, one after the other. -/
def perform (fs : List (M → M)) (m : M) : M := fs.foldl (fun m f => f m) m

@[simp] theorem perform_nil (m : M) : perform [] m = m := rfl

@[simp] theorem perform_cons (f : M → M) (fs : List (M → M)) (m : M) :
    perform (f :: fs) m = perform fs (f m) := rfl

@[simp] theorem perform_append (fs gs : List (M → M)) (m : M) :
    perform (fs ++ gs) m = perform gs (perform fs m) := List.foldl_append

/-- The tasks of an operation, its own and those it hands on. -/
def Op.tasks : Op M E → List (M → M)
  | .act f => [f]
  | .start _ tasks => tasks
  | _ => []

def work (ops : List (Op M E)) : List (M → M) := ops.flatMap Op.tasks

/-- All tasks of the code, core after core. -/
def allWork (code : Code n M E) : List (M → M) :=
  (List.finRange n).flatMap fun k => work (code k)

/-- What the code does when every task is done where it is started, and one
    core runs after the other. -/
def inTurn (code : Code n M E) (m : M) : M := perform (allWork code) m

/-- `f` and `g` may change places wherever `I` holds. -/
def CommuteOn (I : M → Prop) (f g : M → M) : Prop := ∀ m, I m → f (g m) = g (f m)

def Keeps (I : M → Prop) (f : M → M) : Prop := ∀ m, I m → I (f m)

variable {I : M → Prop} {m : M} {f : M → M} {fs gs : List (M → M)}

theorem CommuteOn.symm {g : M → M} (h : CommuteOn I f g) : CommuteOn I g f :=
  fun m hm => (h m hm).symm

theorem keeps_perform (hfs : ∀ f ∈ fs, Keeps I f) : Keeps I (perform fs) := by
  intro m hm
  induction fs generalizing m with
  | nil => exact hm
  | cons f fs ih =>
    have hf : I (f m) := hfs f List.mem_cons_self m hm
    exact ih (fun g hg => hfs g (List.mem_cons_of_mem f hg)) (f m) hf

/-- A task that commutes with all tasks of a list commutes with the list. -/
theorem perform_comm (hfs : ∀ g ∈ fs, Keeps I g) (hcomm : ∀ g ∈ fs, CommuteOn I f g) (hm : I m) :
    f (perform fs m) = perform fs (f m) := by
  induction fs generalizing m with
  | nil => rfl
  | cons g fs ih =>
    have hg : I (g m) := hfs g List.mem_cons_self m hm
    rw [perform_cons, perform_cons,
      ih (fun g' hg' => hfs g' (List.mem_cons_of_mem g hg'))
        (fun g' hg' => hcomm g' (List.mem_cons_of_mem g hg')) hg,
      hcomm g List.mem_cons_self m hm]

/-- **Moving to the front**: a task that commutes with those before it may
    be done first. -/
theorem perform_front (hfs : ∀ g ∈ fs, Keeps I g) (hcomm : ∀ g ∈ fs, CommuteOn I f g)
    (hm : I m) : perform (fs ++ f :: gs) m = perform (fs ++ gs) (f m) := by
  rw [perform_append, perform_cons, perform_comm hfs hcomm hm, perform_append]

/-- Lists that commute may change places. -/
theorem perform_swap (hfs : ∀ f ∈ fs, Keeps I f) (hgs : ∀ g ∈ gs, Keeps I g)
    (hcomm : ∀ f ∈ fs, ∀ g ∈ gs, CommuteOn I f g) (hm : I m) :
    perform (fs ++ gs) m = perform (gs ++ fs) m := by
  induction gs generalizing m with
  | nil => rw [List.append_nil, List.nil_append]
  | cons g gs ih =>
    have hg : I (g m) := hgs g List.mem_cons_self m hm
    rw [perform_front hfs (fun f hf => (hcomm f hf g List.mem_cons_self).symm) hm,
      ih (fun g' hg' => hgs g' (List.mem_cons_of_mem g hg'))
        (fun f hf g' hg' => hcomm f hf g' (List.mem_cons_of_mem g hg')) hg]
    rfl

/-! ## Section 3: Work that commutes -/

/-- The tasks of one core that engines have still to do. -/
def State.owned (s : State n M E) (k : Fin n) : List (Task n M E) :=
  s.pending.filter (fun t => t.owner = k)

omit [DecidableEq E] in
theorem owned_append_start {pending : List (Task n M E)} {k k' : Fin n} {e : E}
    {fs : List (M → M)} :
    (pending ++ fs.map (fun f => (⟨k, e, f⟩ : Task n M E))).filter (fun t => t.owner = k') =
      pending.filter (fun t => t.owner = k') ++
        if k' = k then fs.map (fun f => ⟨k, e, f⟩) else [] := by
  rw [List.filter_append]
  congr 1
  by_cases hk : k' = k
  · rw [if_pos hk]
    apply List.filter_eq_self.mpr
    intro t ht
    obtain ⟨f, _, rfl⟩ := List.mem_map.mp ht
    exact decide_eq_true hk.symm
  · rw [if_neg hk]
    apply List.filter_eq_nil_iff.mpr
    intro t ht
    obtain ⟨f, _, rfl⟩ := List.mem_map.mp ht
    simpa using Ne.symm hk

/-- An engine without work has none for the core. -/
theorem filter_owned {s : State n M E} {k : Fin n} {e : E}
    (hdone : ∀ t ∈ s.pending, t.engine ≠ e) :
    (s.owned k).filter (fun t => t.engine ≠ e) = s.owned k := by
  apply List.filter_eq_self.mpr
  intro t ht
  exact decide_eq_true (hdone t (List.mem_of_mem_filter ht))

/-- With the tasks `ctx` possibly still to do, whatever the core does before
    it has waited for them commutes with them. -/
def Ordered (I : M → Prop) (k : Fin n) : List (Task n M E) → List (Op M E) → Prop
  | _, [] => True
  | ctx, .act f :: ops => (∀ t ∈ ctx, CommuteOn I f t.run) ∧ Ordered I k ctx ops
  | ctx, .start e fs :: ops =>
      fs.Pairwise (CommuteOn I) ∧ (∀ f ∈ fs, ∀ t ∈ ctx, CommuteOn I f t.run) ∧
        Ordered I k (ctx ++ fs.map (fun f => ⟨k, e, f⟩)) ops
  | ctx, .wait e :: ops => Ordered I k (ctx.filter (fun t => t.engine ≠ e)) ops
  | ctx, .barrier :: ops => Ordered I k ctx ops

theorem Ordered.sublist {k : Fin n} {ops : List (Op M E)} {ctx ctx' : List (Task n M E)}
    (h : Ordered I k ctx ops) (hsub : ctx'.Sublist ctx) : Ordered I k ctx' ops := by
  induction ops generalizing ctx ctx' with
  | nil => trivial
  | cons op ops ih =>
    match op, h with
    | .act f, ⟨hcomm, hops⟩ => exact ⟨fun t ht => hcomm t (hsub.subset ht), ih hops hsub⟩
    | .start e fs, ⟨hpair, hcomm, hops⟩ =>
      exact ⟨hpair, fun f hf t ht => hcomm f hf t (hsub.subset ht),
        ih hops (hsub.append_right _)⟩
    | .wait e, hops =>
      have hops' : Ordered I k (ctx.filter (fun t => t.engine ≠ e)) ops := hops
      exact ih hops' (hsub.filter _)
    | .barrier, hops =>
      have hops' : Ordered I k ctx ops := hops
      exact ih hops' hsub

/-- Actions in front of other code. -/
theorem ordered_acts {k : Fin n} {ctx : List (Task n M E)} {fs : List (M → M)}
    {ops : List (Op M E)} (hfs : ∀ f ∈ fs, ∀ t ∈ ctx, CommuteOn I f t.run)
    (hops : Ordered I k ctx ops) : Ordered I k ctx (fs.map .act ++ ops) := by
  induction fs with
  | nil => exact hops
  | cons f fs ih =>
    exact ⟨hfs f List.mem_cons_self, ih (fun g hg => hfs g (List.mem_cons_of_mem f hg))⟩

/-- Where all work commutes, the order does not matter. -/
theorem ordered_of_pairwise {k : Fin n} {ops : List (Op M E)} {ctx : List (Task n M E)}
    (h : (ctx.map Task.run ++ work ops).Pairwise (CommuteOn I)) : Ordered I k ctx ops := by
  induction ops generalizing ctx with
  | nil => trivial
  | cons op ops ih =>
    obtain ⟨hctx, hwork, hcross⟩ := List.pairwise_append.mp h
    match op with
    | .act f =>
      refine ⟨fun t ht => (hcross _ (List.mem_map_of_mem ht) f List.mem_cons_self).symm, ?_⟩
      apply ih
      exact h.sublist ((List.sublist_cons_self f _).append_left _)
    | .start e fs =>
      obtain ⟨hfs, _, _⟩ := List.pairwise_append.mp hwork
      refine ⟨hfs, fun f hf t ht => ?_, ?_⟩
      · exact (hcross _ (List.mem_map_of_mem ht) f (List.mem_append_left _ hf)).symm
      · apply ih
        have hruns : (ctx ++ fs.map fun f => (⟨k, e, f⟩ : Task n M E)).map Task.run =
              ctx.map Task.run ++ fs := by
          rw [List.map_append, List.map_map]
          congr 1
          exact List.map_id fs
        rw [hruns, List.append_assoc]
        exact h
    | .wait e =>
      apply ih
      exact h.sublist (((List.filter_sublist).map _).append_right _)
    | .barrier => exact ih h

/-- What may still be to do of the tasks of a core when it has run its
    code. -/
def left (k : Fin n) : List (Task n M E) → List (Op M E) → List (Task n M E)
  | ctx, [] => ctx
  | ctx, .act _ :: ops => left k ctx ops
  | ctx, .start e fs :: ops => left k (ctx ++ fs.map (fun f => ⟨k, e, f⟩)) ops
  | ctx, .wait e :: ops => left k (ctx.filter (fun t => t.engine ≠ e)) ops
  | ctx, .barrier :: ops => left k ctx ops

/-- Code goes on with what its first part leaves. -/
theorem Ordered.append {k : Fin n} {ops ops' : List (Op M E)} {ctx : List (Task n M E)}
    (h : Ordered I k ctx ops) (h' : Ordered I k (left k ctx ops) ops') :
    Ordered I k ctx (ops ++ ops') := by
  induction ops generalizing ctx with
  | nil => exact h'
  | cons op ops ih =>
    match op, h, h' with
    | .act f, ⟨hcomm, hops⟩, h' => exact ⟨hcomm, ih hops h'⟩
    | .start e fs, ⟨hpair, hcomm, hops⟩, h' => exact ⟨hpair, hcomm, ih hops h'⟩
    | .wait e, hops, h' =>
      have hops' : Ordered I k (ctx.filter (fun t => t.engine ≠ e)) ops := hops
      exact ih hops' h'
    | .barrier, hops, h' =>
      have hops' : Ordered I k ctx ops := hops
      exact ih hops' h'

/-- **Invariant** of a stretch without a barrier. -/
structure Phase (I : M → Prop) (s : State n M E) : Prop where
  free : ∀ k, ∀ op ∈ s.rest k, op.isBarrier = false
  inv : I s.mem
  keeps_pending : ∀ t ∈ s.pending, Keeps I t.run
  keeps : ∀ k, ∀ f ∈ work (s.rest k), Keeps I f
  pairwise : s.pending.Pairwise (fun t u => CommuteOn I t.run u.run)
  ordered : ∀ k, Ordered I k (s.owned k) (s.rest k)
  apart : ∀ k k', k ≠ k' → ∀ f ∈ work (s.rest k), ∀ g ∈ work (s.rest k'), CommuteOn I f g
  foreign : ∀ t ∈ s.pending, ∀ k, k ≠ t.owner → ∀ f ∈ work (s.rest k), CommuteOn I f t.run

/-- The memory when the engines have done what they have to do and the
    cores have then run their code, one after the other. -/
def State.outcome (s : State n M E) : M := inTurn s.rest (perform (s.pending.map Task.run) s.mem)

omit [DecidableEq E] in
/-- The code around one of the cores. -/
theorem allWork_update (code : Code n M E) (k : Fin n) :
    ∃ before after : List (M → M),
      (∀ ops, allWork (Function.update code k ops) = before ++ work ops ++ after) ∧
      (∀ f ∈ before, ∃ k', k' ≠ k ∧ f ∈ work (code k')) := by
  obtain ⟨l₁, l₂, hl⟩ := List.append_of_mem (List.mem_finRange k)
  have hnodup : (l₁ ++ k :: l₂).Nodup := hl ▸ List.nodup_finRange n
  have hl₁ : ∀ k' ∈ l₁, k' ≠ k := by
    intro k' hk' heq
    exact (List.nodup_append.mp hnodup).2.2 k' hk' k List.mem_cons_self heq
  have hl₂ : ∀ k' ∈ l₂, k' ≠ k := by
    intro k' hk' heq
    have htail := (List.nodup_append.mp hnodup).2.1
    exact (List.nodup_cons.mp htail).1 (heq ▸ hk')
  have hother : ∀ (l : List (Fin n)) (ops : List (Op M E)), (∀ k' ∈ l, k' ≠ k) →
      (l.flatMap fun k' => work (Function.update code k ops k')) =
        l.flatMap fun k' => work (code k') := by
    intro l ops hne
    apply List.flatMap_congr
    intro k' hk'
    rw [Function.update_of_ne (hne k' hk')]
  refine ⟨l₁.flatMap fun k' => work (code k'), l₂.flatMap fun k' => work (code k'), ?_, ?_⟩
  · intro ops
    rw [allWork, hl, List.flatMap_append, List.flatMap_cons, hother l₁ ops hl₁,
      hother l₂ ops hl₂, Function.update_self, List.append_assoc]
  · intro f hf
    obtain ⟨k', hk', hf⟩ := List.mem_flatMap.mp hf
    exact ⟨k', hl₁ k' hk', hf⟩

omit [DecidableEq E] in
@[simp] theorem work_nil : work ([] : List (Op M E)) = [] := rfl

omit [DecidableEq E] in
@[simp] theorem work_cons (op : Op M E) (ops : List (Op M E)) :
    work (op :: ops) = op.tasks ++ work ops := rfl

omit [DecidableEq E] in
@[simp] theorem work_append (ops ops' : List (Op M E)) :
    work (ops ++ ops') = work ops ++ work ops' :=
  List.flatMap_append

omit [DecidableEq E] in
@[simp] theorem work_acts (fs : List (M → M)) : work (fs.map .act : List (Op M E)) = fs := by
  induction fs with
  | nil => rfl
  | cons f fs ih => rw [List.map_cons, work_cons, ih]; rfl

section Steps

variable {s s' : State n M E} {k : Fin n} {op : Op M E} {ops : List (Op M E)}

omit [DecidableEq E] in
/-- What is left after a step of a core was left before. -/
theorem mem_of_mem_update (hrest : s.rest k = op :: ops) {k' : Fin n} {op' : Op M E}
    (h : op' ∈ Function.update s.rest k ops k') : op' ∈ s.rest k' := by
  by_cases hk : k' = k
  · rw [hk, Function.update_self] at h
    rw [hk, hrest]
    exact List.mem_cons_of_mem op h
  · rwa [Function.update_of_ne hk] at h

omit [DecidableEq E] in
theorem work_of_work_update (hrest : s.rest k = op :: ops) {k' : Fin n}
    (h : f ∈ work (Function.update s.rest k ops k')) : f ∈ work (s.rest k') := by
  obtain ⟨op', hop', hf⟩ := List.mem_flatMap.mp h
  exact List.mem_flatMap.mpr ⟨op', mem_of_mem_update hrest hop', hf⟩

/-- The tasks of a core that moves are checked against the rest of its
    code; the other cores' are as before. -/
theorem Phase.ordered_update (h : Phase I s) {pending : List (Task n M E)}
    (hself : Ordered I k (pending.filter (fun t => t.owner = k)) ops)
    (hsub : ∀ k', k' ≠ k → (pending.filter (fun t => t.owner = k')).Sublist (s.owned k')) :
    ∀ k', Ordered I k' (pending.filter (fun t => t.owner = k'))
      (Function.update s.rest k ops k') := by
  intro k'
  by_cases hk : k' = k
  · rw [hk, Function.update_self]
    exact hself
  · rw [Function.update_of_ne hk]
    exact (h.ordered k').sublist (hsub k' hk)

theorem Phase.act (h : Phase I s) {f : M → M} (hrest : s.rest k = .act f :: ops) :
    Phase I { s with rest := Function.update s.rest k ops, mem := f s.mem } := by
  have hf : f ∈ work (s.rest k) := by
    rw [hrest]
    exact List.mem_cons_self
  have hord := h.ordered k
  rw [hrest] at hord
  exact
    { free := fun k' op hop => h.free k' op (mem_of_mem_update hrest hop)
      inv := h.keeps k f hf s.mem h.inv
      keeps_pending := h.keeps_pending
      keeps := fun k' g hg => h.keeps k' g (work_of_work_update hrest hg)
      pairwise := h.pairwise
      ordered := h.ordered_update hord.2 (fun k' _ => List.Sublist.refl _)
      apart := fun k₁ k₂ hne g₁ hg₁ g₂ hg₂ => h.apart k₁ k₂ hne g₁
        (work_of_work_update hrest hg₁) g₂ (work_of_work_update hrest hg₂)
      foreign := fun t ht k' hne g hg => h.foreign t ht k' hne g (work_of_work_update hrest hg) }

theorem Phase.wait (h : Phase I s) {e : E} (hrest : s.rest k = .wait e :: ops)
    (hdone : ∀ t ∈ s.pending, t.engine ≠ e) :
    Phase I { s with rest := Function.update s.rest k ops } := by
  have hord := h.ordered k
  rw [hrest] at hord
  have hself : Ordered I k (s.owned k) ops := by
    rw [← filter_owned hdone]
    exact hord
  exact
    { free := fun k' op hop => h.free k' op (mem_of_mem_update hrest hop)
      inv := h.inv
      keeps_pending := h.keeps_pending
      keeps := fun k' g hg => h.keeps k' g (work_of_work_update hrest hg)
      pairwise := h.pairwise
      ordered := h.ordered_update hself (fun k' _ => List.Sublist.refl _)
      apart := fun k₁ k₂ hne g₁ hg₁ g₂ hg₂ => h.apart k₁ k₂ hne g₁
        (work_of_work_update hrest hg₁) g₂ (work_of_work_update hrest hg₂)
      foreign := fun t ht k' hne g hg => h.foreign t ht k' hne g (work_of_work_update hrest hg) }

/-- A task handed on commutes with what is pending: with its own core's by
    `Ordered`, with the other cores' because their code stays apart. -/
theorem Phase.start (h : Phase I s) {e : E} {fs : List (M → M)}
    (hrest : s.rest k = .start e fs :: ops) :
    Phase I { s with
      rest := Function.update s.rest k ops
      pending := s.pending ++ fs.map (fun f => ⟨k, e, f⟩) } := by
  have hord := h.ordered k
  rw [hrest] at hord
  obtain ⟨hpair, hcomm, hops⟩ := hord
  have hwork : ∀ f ∈ fs, f ∈ work (s.rest k) := by
    intro f hf
    rw [hrest]
    exact List.mem_append_left _ hf
  have hnew : ∀ t ∈ fs.map (fun f => (⟨k, e, f⟩ : Task n M E)), t.owner = k ∧ t.run ∈ fs := by
    intro t ht
    obtain ⟨f, hf, rfl⟩ := List.mem_map.mp ht
    exact ⟨rfl, hf⟩
  exact
    { free := fun k' op hop => h.free k' op (mem_of_mem_update hrest hop)
      inv := h.inv
      keeps_pending := by
        intro t ht
        obtain hold | ht := List.mem_append.mp ht
        · exact h.keeps_pending t hold
        · exact h.keeps k t.run (hwork t.run (hnew t ht).2)
      keeps := fun k' g hg => h.keeps k' g (work_of_work_update hrest hg)
      pairwise := by
        apply List.pairwise_append.mpr
        refine ⟨h.pairwise, List.pairwise_map.mpr hpair, ?_⟩
        intro t ht u hu
        by_cases ho : t.owner = k
        · have htk : t ∈ s.owned k := List.mem_filter.mpr ⟨ht, decide_eq_true ho⟩
          exact (hcomm u.run (hnew u hu).2 t htk).symm
        · exact (h.foreign t ht k (Ne.symm ho) u.run (hwork u.run (hnew u hu).2)).symm
      ordered := by
        apply h.ordered_update
        · rw [owned_append_start, if_pos rfl]
          exact hops
        · intro k' hne
          rw [owned_append_start, if_neg hne, List.append_nil]
          exact List.Sublist.refl _
      apart := fun k₁ k₂ hne g₁ hg₁ g₂ hg₂ => h.apart k₁ k₂ hne g₁
        (work_of_work_update hrest hg₁) g₂ (work_of_work_update hrest hg₂)
      foreign := by
        intro t ht k' hne g hg
        have hg' := work_of_work_update hrest hg
        obtain hold | ht := List.mem_append.mp ht
        · exact h.foreign t hold k' hne g hg'
        · have hne' : k ≠ k' := by
            rw [← (hnew t ht).1]
            exact hne.symm
          exact (h.apart k k' hne' t.run (hwork t.run (hnew t ht).2) g hg').symm }

theorem Phase.engine (h : Phase I s) {i : Nat} (hi : i < s.pending.length) :
    Phase I { s with mem := s.pending[i].run s.mem, pending := s.pending.eraseIdx i } := by
  have hsub : (s.pending.eraseIdx i).Sublist s.pending := List.eraseIdx_sublist ..
  have hmem : s.pending[i] ∈ s.pending := List.getElem_mem hi
  exact
    { free := h.free
      inv := h.keeps_pending _ hmem s.mem h.inv
      keeps_pending := fun t ht => h.keeps_pending t (hsub.subset ht)
      keeps := h.keeps
      pairwise := h.pairwise.sublist hsub
      ordered := fun k => (h.ordered k).sublist (hsub.filter _)
      apart := h.apart
      foreign := fun t ht => h.foreign t (hsub.subset ht) }

/-! ### The outcome stays the same -/

theorem Phase.keeps_before (h : Phase I s) {before : List (M → M)}
    (hbefore : ∀ f ∈ before, ∃ k', k' ≠ k ∧ f ∈ work (s.rest k')) : ∀ f ∈ before, Keeps I f := by
  intro f hf
  obtain ⟨k', _, hk'⟩ := hbefore f hf
  exact h.keeps k' f hk'

theorem Phase.keeps_runs (h : Phase I s) : ∀ f ∈ s.pending.map Task.run, Keeps I f := by
  intro f hf
  obtain ⟨t, ht, rfl⟩ := List.mem_map.mp hf
  exact h.keeps_pending t ht

/-- The own action moves in front of the cores before it and of the
    pending tasks. -/
theorem Phase.act_outcome (h : Phase I s) {f : M → M} (hrest : s.rest k = .act f :: ops) :
    State.outcome { s with rest := Function.update s.rest k ops, mem := f s.mem } =
      s.outcome := by
  obtain ⟨before, after, hsplit, hbefore⟩ := allWork_update s.rest k
  have hf : f ∈ work (s.rest k) := by
    rw [hrest]
    exact List.mem_cons_self
  have hord := h.ordered k
  rw [hrest] at hord
  have hpending : ∀ g ∈ s.pending.map Task.run, CommuteOn I f g := by
    intro g hg
    obtain ⟨t, ht, rfl⟩ := List.mem_map.mp hg
    by_cases ho : t.owner = k
    · exact hord.1 t (List.mem_filter.mpr ⟨ht, decide_eq_true ho⟩)
    · exact h.foreign t ht k (Ne.symm ho) f hf
  have hcores : ∀ g ∈ before, CommuteOn I f g := by
    intro g hg
    obtain ⟨k', hne, hk'⟩ := hbefore g hg
    exact h.apart k k' hne.symm f hf g hk'
  have hold : allWork s.rest = before ++ f :: (work ops ++ after) := by
    have := hsplit (s.rest k)
    rwa [Function.update_eq_self, hrest, work_cons, List.append_assoc] at this
  have hdone : I (perform (s.pending.map Task.run) s.mem) :=
    keeps_perform h.keeps_runs s.mem h.inv
  show perform (allWork (Function.update s.rest k ops))
      (perform (s.pending.map Task.run) (f s.mem)) =
    perform (allWork s.rest) (perform (s.pending.map Task.run) s.mem)
  rw [hsplit, hold, perform_front (h.keeps_before hbefore) hcores hdone,
    perform_comm h.keeps_runs hpending h.inv, List.append_assoc]

theorem Phase.start_outcome (h : Phase I s) {e : E} {fs : List (M → M)}
    (hrest : s.rest k = .start e fs :: ops) :
    State.outcome { s with
      rest := Function.update s.rest k ops
      pending := s.pending ++ fs.map (fun f => ⟨k, e, f⟩) } = s.outcome := by
  obtain ⟨before, after, hsplit, hbefore⟩ := allWork_update s.rest k
  have hwork : ∀ f ∈ fs, f ∈ work (s.rest k) := by
    intro f hf
    rw [hrest]
    exact List.mem_append_left _ hf
  have hcores : ∀ g ∈ before, ∀ f ∈ fs, CommuteOn I g f := by
    intro g hg f hf
    obtain ⟨k', hne, hk'⟩ := hbefore g hg
    exact h.apart k' k hne g hk' f (hwork f hf)
  have hold : allWork s.rest = before ++ fs ++ (work ops ++ after) := by
    have := hsplit (s.rest k)
    rwa [Function.update_eq_self, hrest, work_cons, List.append_assoc, List.append_assoc,
      ← List.append_assoc] at this
  have hdone : I (perform (s.pending.map Task.run) s.mem) :=
    keeps_perform h.keeps_runs s.mem h.inv
  have hruns : (s.pending ++ fs.map (fun f => (⟨k, e, f⟩ : Task n M E))).map Task.run =
      s.pending.map Task.run ++ fs := by
    rw [List.map_append, List.map_map]
    exact congrArg _ (List.map_id fs)
  show perform (allWork (Function.update s.rest k ops))
      (perform ((s.pending ++ fs.map (fun f => (⟨k, e, f⟩ : Task n M E))).map Task.run) s.mem) =
    perform (allWork s.rest) (perform (s.pending.map Task.run) s.mem)
  rw [hsplit, hold, hruns, perform_append _ (work ops ++ after), perform_append _ fs s.mem,
    perform_swap (h.keeps_before hbefore) (fun f hf => h.keeps k f (hwork f hf)) hcores hdone,
    perform_append fs before, List.append_assoc, perform_append before]

/-- The engine may have done any of its tasks first. -/
theorem Phase.engine_outcome (h : Phase I s) {i : Nat} (hi : i < s.pending.length) :
    State.outcome { s with mem := s.pending[i].run s.mem, pending := s.pending.eraseIdx i } =
      s.outcome := by
  have hlist : s.pending = s.pending.take i ++ s.pending[i] :: s.pending.drop (i + 1) := by
    rw [← List.drop_eq_getElem_cons hi, List.take_append_drop]
  have hpair := h.pairwise
  rw [hlist] at hpair
  have hcomm : ∀ g ∈ (s.pending.take i).map Task.run, CommuteOn I s.pending[i].run g := by
    intro g hg
    obtain ⟨t, ht, rfl⟩ := List.mem_map.mp hg
    exact ((List.pairwise_append.mp hpair).2.2 t ht _ List.mem_cons_self).symm
  have hkeeps : ∀ g ∈ (s.pending.take i).map Task.run, Keeps I g := by
    intro g hg
    obtain ⟨t, ht, rfl⟩ := List.mem_map.mp hg
    exact h.keeps_pending t (List.mem_of_mem_take ht)
  have hold : s.pending.map Task.run = (s.pending.take i).map Task.run ++
      s.pending[i].run :: (s.pending.drop (i + 1)).map Task.run := by
    rw [← List.map_cons, ← List.map_append, ← hlist]
  show inTurn s.rest (perform ((s.pending.eraseIdx i).map Task.run) (s.pending[i].run s.mem)) =
    inTurn s.rest (perform (s.pending.map Task.run) s.mem)
  rw [hold, perform_front hkeeps hcomm h.inv, List.eraseIdx_eq_take_drop_succ, List.map_append]

theorem Phase.next (h : Phase I s) {l : Label n} (hn : system.next s l = some s') :
    Phase I s' ∧ s'.outcome = s.outcome := by
  match l with
  | .core k =>
    match coreStep_cases hn with
    | .act hrest => exact ⟨h.act hrest, h.act_outcome hrest⟩
    | .start hrest => exact ⟨h.start hrest, h.start_outcome hrest⟩
    | .wait hrest hdone =>
      refine ⟨h.wait hrest hdone, ?_⟩
      -- waiting only drops an operation without tasks
      obtain ⟨before, after, hsplit, _⟩ := allWork_update s.rest k
      have hold := hsplit (s.rest k)
      rw [Function.update_eq_self, hrest] at hold
      show perform (allWork (Function.update s.rest k _)) _ = perform (allWork s.rest) _
      rw [hsplit, hold]
      rfl
  | .engine i =>
    obtain ⟨hi, rfl⟩ := engineStep_cases hn
    exact ⟨h.engine hi, h.engine_outcome hi⟩
  | .sync =>
    obtain ⟨hall, rfl⟩ := syncStep_cases hn
    -- nobody stands at a barrier, so there is nobody
    have hsame : (fun k => (s.rest k).tail) = s.rest := by
      funext k
      have hop := h.free k .barrier (by rw [rest_of_atBarrier (hall k)]; exact List.mem_cons_self)
      cases hop
    rw [hsame]
    exact ⟨h, rfl⟩

end Steps

/-! ## Section 4: The result of commuting code -/

/-- Code without a barrier in which whatever may overlap commutes. -/
structure Commuting (I : M → Prop) (code : Code n M E) : Prop where
  free : ∀ k, ∀ op ∈ code k, op.isBarrier = false
  keeps : ∀ k, ∀ f ∈ work (code k), Keeps I f
  ordered : ∀ k, Ordered I k [] (code k)
  apart : ∀ k k', k ≠ k' → ∀ f ∈ work (code k), ∀ g ∈ work (code k'), CommuteOn I f g

theorem Commuting.phase {code : Code n M E} (h : Commuting I code) (hm : I m) :
    Phase I (initial code m) where
  free := h.free
  inv := hm
  keeps_pending := fun _ ht => absurd ht List.not_mem_nil
  keeps := h.keeps
  pairwise := List.Pairwise.nil
  ordered := h.ordered
  apart := h.apart
  foreign := fun _ ht => absurd ht List.not_mem_nil

theorem Commuting.reaches {code : Code n M E} (h : Commuting I code) (hm : I m)
    {s : State n M E} (hs : Reaches code m s) : Phase I s ∧ s.outcome = inTurn code m := by
  apply hs.invariant ⟨h.phase hm, rfl⟩
  intro s l s' ⟨hphase, hout⟩ hn
  obtain ⟨hphase', hout'⟩ := hphase.next hn
  exact ⟨hphase', hout'.trans hout⟩

/-- **Commuting work**: every run ends with the memory of the reading in
    turn, whatever the order of the steps. -/
theorem Commuting.ends {code : Code n M E} (h : Commuting I code) (hm : I m) {m' : M}
    (hend : Ends code m m') : m' = inTurn code m := by
  obtain ⟨s, hs, ⟨hrest, hpending⟩, rfl⟩ := hend
  obtain ⟨_, hout⟩ := h.reaches hm hs
  have hnone : allWork s.rest = [] := by
    apply List.flatMap_eq_nil_iff.mpr
    intro k _
    rw [hrest k]
    rfl
  rw [← hout, State.outcome, inTurn, hnone, hpending]
  rfl

/-- Code of a single core in which all work commutes. -/
theorem commuting_of_pairwise {ops : List (Op M E)} (hfree : ∀ op ∈ ops, op.isBarrier = false)
    (hkeeps : ∀ f ∈ work ops, Keeps I f) (hcomm : (work ops).Pairwise (CommuteOn I)) :
    Commuting I (fun _ : Fin 1 => ops) where
  free := fun _ => hfree
  keeps := fun _ => hkeeps
  ordered := fun _ => ordered_of_pairwise hcomm
  apart := fun k k' hne => absurd (Subsingleton.elim k k') hne

/-! ### What every task keeps -/

/-- What every task keeps is kept, whatever the order. -/
theorem Reaches.keeps {code : Code n M E} {s : State n M E} (hs : Reaches code m s)
    (hkeep : ∀ k, ∀ f ∈ work (code k), Keeps I f) (hm : I m) : I s.mem := by
  have hall : I s.mem ∧ (∀ t ∈ s.pending, Keeps I t.run) ∧
      ∀ k, ∀ f ∈ work (s.rest k), Keeps I f := by
    apply hs.invariant
    · exact ⟨hm, fun _ ht => absurd ht List.not_mem_nil, hkeep⟩
    · intro s l s' ⟨hI, hpending, hrest⟩ hn
      match l with
      | .core k =>
        match coreStep_cases hn with
        | .act hop =>
          refine ⟨hrest k _ (by rw [hop]; exact List.mem_cons_self) _ hI, hpending, ?_⟩
          exact fun k' f hf => hrest k' f (work_of_work_update hop hf)
        | .start hop =>
          refine ⟨hI, ?_, fun k' f hf => hrest k' f (work_of_work_update hop hf)⟩
          intro t ht
          obtain hold | hnew := List.mem_append.mp ht
          · exact hpending t hold
          · obtain ⟨f, hf, rfl⟩ := List.mem_map.mp hnew
            exact hrest k f (by rw [hop]; exact List.mem_append_left _ hf)
        | .wait hop _ =>
            exact ⟨hI, hpending, fun k' f hf => hrest k' f (work_of_work_update hop hf)⟩
      | .engine i =>
        obtain ⟨hi, rfl⟩ := engineStep_cases hn
        refine ⟨hpending _ (List.getElem_mem hi) _ hI, ?_, hrest⟩
        exact fun t ht => hpending t ((List.eraseIdx_sublist ..).subset ht)
      | .sync =>
        obtain ⟨hall, rfl⟩ := syncStep_cases hn
        refine ⟨hI, hpending, ?_⟩
        intro k f hf
        apply hrest k f
        rw [rest_of_atBarrier (hall k)]
        exact hf
  exact hall.1

theorem Ends.keeps {code : Code n M E} {m' : M} (h : Ends code m m')
    (hkeep : ∀ k, ∀ f ∈ work (code k), Keeps I f) (hm : I m) : I m' := by
  obtain ⟨s, hs, _, rfl⟩ := h
  exact hs.keeps hkeep hm

/-- Code without tasks leaves the memory as it is. -/
theorem Ends.idle {code : Code n M E} {m' : M} (h : Ends code m m')
    (hidle : ∀ k, work (code k) = []) : m' = m := by
  apply h.keeps (I := fun now => now = m) _ rfl
  intro k f hf
  rw [hidle k] at hf
  cases hf

omit [DecidableEq E] in
theorem inTurn_one {ops : List (Op M E)} :
    inTurn (fun _ : Fin 1 => ops) m = perform (work ops) m := by
  rw [inTurn, allWork, List.finRange_succ, List.finRange_zero, List.map_nil, List.flatMap_cons,
    List.flatMap_nil, List.append_nil]

/-! ## Section 5: Waiting for everything -/

theorem left_append {k : Fin n} {ctx : List (Task n M E)} {ops ops' : List (Op M E)} :
    left k ctx (ops ++ ops') = left k (left k ctx ops) ops' := by
  induction ops generalizing ctx with
  | nil => rfl
  | cons op ops ih =>
    match op with
    | .act _ => exact ih
    | .start _ _ => exact ih
    | .wait _ => exact ih
    | .barrier => exact ih

theorem left_acts {k : Fin n} {ctx : List (Task n M E)} {fs : List (M → M)}
    {ops : List (Op M E)} : left k ctx (fs.map .act ++ ops) = left k ctx ops := by
  induction fs with
  | nil => rfl
  | cons f fs ih => exact ih

/-- Every core waits for what it has started. -/
def Drained (code : Code n M E) : Prop := ∀ k, left k [] (code k) = []

theorem Drained.append {code code' : Code n M E} (h : Drained code) (h' : Drained code') :
    Drained (fun k => code k ++ code' k) := by
  intro k
  rw [left_append, h k]
  exact h' k

theorem left_flatMap {α : Type} {k : Fin n} {l : List α} {f : α → List (Op M E)}
    (h : ∀ i ∈ l, left k [] (f i) = []) : left k [] (l.flatMap f) = [] := by
  induction l with
  | nil => rfl
  | cons i l ih =>
    rw [List.flatMap_cons, left_append, h i List.mem_cons_self]
    exact ih fun j hj => h j (List.mem_cons_of_mem i hj)

theorem drained_acts (fs : Fin n → List (M → M)) :
    Drained (fun k => (fs k).map .act : Code n M E) := by
  intro k
  show left k [] ((fs k).map .act) = []
  induction fs k with
  | nil => rfl
  | cons f fs ih => exact ih

theorem left_sublist {k : Fin n} {ops : List (Op M E)} {ctx ctx' : List (Task n M E)}
    (h : ctx'.Sublist ctx) : (left k ctx' ops).Sublist (left k ctx ops) := by
  induction ops generalizing ctx ctx' with
  | nil => exact h
  | cons op ops ih =>
    match op with
    | .act _ => exact ih h
    | .start _ _ => exact ih (h.append_right _)
    | .wait _ => exact ih (h.filter _)
    | .barrier => exact ih h

/-- **Invariant**: with what is pending, the rest of the code still waits
    for everything. -/
def WillDrain (s : State n M E) : Prop := ∀ k, left k (s.owned k) (s.rest k) = []

section Draining

variable {s s' : State n M E}

/-- A core that moves is checked against its new rest, the others lose
    pending tasks at most. -/
theorem WillDrain.update (h : WillDrain s) {k : Fin n} {ops : List (Op M E)} {mem : M}
    {pending : List (Task n M E)}
    (hself : left k (pending.filter (fun t => t.owner = k)) ops = [])
    (hother : ∀ k', k' ≠ k → (pending.filter (fun t => t.owner = k')).Sublist (s.owned k')) :
    WillDrain { s with rest := Function.update s.rest k ops, mem := mem, pending := pending } := by
  intro k'
  by_cases hk : k' = k
  · show left k' (pending.filter (fun t => t.owner = k')) (Function.update s.rest k ops k') = []
    rw [hk, Function.update_self]
    exact hself
  · show left k' (pending.filter (fun t => t.owner = k')) (Function.update s.rest k ops k') = []
    rw [Function.update_of_ne hk]
    apply List.sublist_nil.mp
    rw [← h k']
    exact left_sublist (hother k' hk)

theorem WillDrain.next (h : WillDrain s) {l : Label n} (hn : system.next s l = some s') :
    WillDrain s' := by
  match l with
  | .core k =>
    have hk := h k
    match coreStep_cases hn with
    | .act hrest =>
      rw [hrest] at hk
      exact h.update hk (fun k' _ => List.Sublist.refl _)
    | .start hrest =>
      rw [hrest] at hk
      apply h.update
      · rw [owned_append_start, if_pos rfl]
        exact hk
      · intro k' hne
        rw [owned_append_start, if_neg hne, List.append_nil]
        exact List.Sublist.refl _
    | .wait (e := e) hrest hdone =>
      rw [hrest] at hk
      apply h.update _ (fun k' _ => List.Sublist.refl _)
      rw [← hk]
      show left k (s.owned k) _ = left k ((s.owned k).filter (fun t => t.engine ≠ e)) _
      rw [filter_owned hdone]
  | .engine i =>
    obtain ⟨hi, rfl⟩ := engineStep_cases hn
    intro k
    apply List.sublist_nil.mp
    rw [← h k]
    exact left_sublist ((List.eraseIdx_sublist ..).filter _)
  | .sync =>
    obtain ⟨hall, rfl⟩ := syncStep_cases hn
    intro k
    have hk := h k
    rw [rest_of_atBarrier (hall k)] at hk
    exact hk

theorem WillDrain.of_reaches {code : Code n M E} (h : Drained code) (hs : Reaches code m s) :
    WillDrain s :=
  hs.invariant h (fun _ _ _ hi hn => hi.next hn)

/-- When the cores have run code that waits for everything, the engines
    have nothing to do. -/
theorem WillDrain.pending_nil (h : WillDrain s) (hrest : ∀ k, s.rest k = []) :
    s.pending = [] := by
  apply List.eq_nil_iff_forall_not_mem.mpr
  intro t ht
  have howned : s.owned t.owner = [] := by
    have := h t.owner
    rwa [hrest] at this
  have hin : t ∈ s.owned t.owner := List.mem_filter.mpr ⟨ht, decide_eq_true rfl⟩
  rw [howned] at hin
  cases hin

end Draining

/-! ## Section 6: Splitting a run -/

def barriers (ops : List (Op M E)) : Nat := ops.countP Op.isBarrier

/-- All cores come to the same number of barriers. -/
def Balanced (code : Code n M E) : Prop := ∀ k k', barriers (code k) = barriers (code k')

omit [DecidableEq E] in
theorem Balanced.append {code code' : Code n M E} (h : Balanced code) (h' : Balanced code') :
    Balanced (fun k => code k ++ code' k) := by
  intro k k'
  rw [barriers, barriers, List.countP_append, List.countP_append]
  exact congrArg₂ _ (h k k') (h' k k')

omit [DecidableEq E] in
theorem balanced_of_free {code : Code n M E} (h : ∀ k, ∀ op ∈ code k, op.isBarrier = false) :
    Balanced code := by
  have hzero : ∀ k, barriers (code k) = 0 := by
    intro k
    apply List.countP_eq_zero.mpr
    intro op hop
    rw [h k op hop]
    exact Bool.false_ne_true
  intro k k'
  rw [hzero k, hzero k']

omit [DecidableEq E] in
theorem balanced_one (ops : List (Op M E)) : Balanced (fun _ : Fin 1 => ops) := fun _ _ => rfl

section Splitting

variable {first tail : Code n M E}

theorem balanced_next {s s' : State n M E} (h : Balanced s.rest) {l : Label n}
    (hn : system.next s l = some s') :
    Balanced s'.rest := by
  match l with
  | .core k =>
    have hupdate : ∀ op ops, s.rest k = op :: ops → op.isBarrier = false →
        Balanced (Function.update s.rest k ops) := by
      intro op ops hrest hop
      have hself : ∀ k', barriers (Function.update s.rest k ops k') = barriers (s.rest k') := by
        intro k'
        by_cases hk : k' = k
        · rw [hk, Function.update_self, hrest, barriers, barriers,
            List.countP_cons_of_neg (by rw [hop]; exact Bool.false_ne_true)]
        · rw [Function.update_of_ne hk]
      intro k₁ k₂
      rw [hself, hself]
      exact h k₁ k₂
    match coreStep_cases hn with
    | .act hrest => exact hupdate _ _ hrest rfl
    | .start hrest => exact hupdate _ _ hrest rfl
    | .wait hrest _ => exact hupdate _ _ hrest rfl
  | .engine i =>
    obtain ⟨_, rfl⟩ := engineStep_cases hn
    exact h
  | .sync =>
    obtain ⟨hall, rfl⟩ := syncStep_cases hn
    intro k k'
    have hk := h k k'
    rw [rest_of_atBarrier (hall k), rest_of_atBarrier (hall k'), barriers, barriers,
      List.countP_cons_of_pos rfl, List.countP_cons_of_pos rfl] at hk
    exact Nat.succ.inj hk

theorem Reaches.balanced {code : Code n M E} {m : M} {s : State n M E} (h : Reaches code m s)
    (hbal : Balanced code) : Balanced s.rest :=
  h.invariant hbal (fun _ _ _ hi hn => balanced_next hi hn)

/-- What a core does next does not depend on what comes later, nor on the
    code of the other cores. -/
theorem CoreStep.head {s s' : State n M E} {k : Fin n} {x : Code n M E} {op : Op M E}
    {ops ops' : List (Op M E)} (hs : s.rest k = op :: ops) (hx : x k = op :: ops')
    (h : CoreStep s k s') : s'.rest = Function.update s.rest k ops ∧
      coreStep { s with rest := x } k = some { s' with rest := Function.update x k ops' } := by
  match h with
  | .act h =>
    obtain ⟨rfl, rfl⟩ := List.cons.inj (h.symm.trans hs)
    exact ⟨rfl, by simp only [coreStep, hx]⟩
  | .start h =>
    obtain ⟨rfl, rfl⟩ := List.cons.inj (h.symm.trans hs)
    exact ⟨rfl, by simp only [coreStep, hx]⟩
  | .wait h hdone =>
    obtain ⟨rfl, rfl⟩ := List.cons.inj (h.symm.trans hs)
    refine ⟨rfl, ?_⟩
    have hall : s.pending.all (fun t => t.engine ≠ _) = true :=
      List.all_eq_true.mpr fun t ht => decide_eq_true (hdone t ht)
    simp only [coreStep, hx]
    rw [if_pos hall]

/-- A core that moves in front of a continuation moves without it. -/
theorem CoreStep.drop {s s' : State n M E} {k : Fin n} {x : Code n M E}
    {cont : Fin n → List (Op M E)} (hrest : ∀ k, s.rest k = x k ++ cont k) (hx : x k ≠ [])
    (h : CoreStep s k s') : ∃ x' : Code n M E, (∀ k, s'.rest k = x' k ++ cont k) ∧
      coreStep { s with rest := x } k = some { s' with rest := x' } := by
  obtain ⟨op, ops, hxk⟩ := List.exists_cons_of_ne_nil hx
  have hk : s.rest k = op :: (ops ++ cont k) := by
    rw [hrest k, hxk]
    rfl
  obtain ⟨hafter, hstep⟩ := h.head hk hxk
  refine ⟨Function.update x k ops, ?_, hstep⟩
  intro k'
  rw [hafter]
  by_cases hne : k' = k
  · rw [hne, Function.update_self, Function.update_self]
  · rw [Function.update_of_ne hne, Function.update_of_ne hne, hrest k']

omit [DecidableEq E] in
theorem engineStep_drop {s s' : State n M E} {i : Nat} (x : Code n M E)
    (h : engineStep s i = some s') : s'.rest = s.rest ∧
      engineStep { s with rest := x } i = some { s' with rest := x } := by
  obtain ⟨hi, rfl⟩ := engineStep_cases h
  refine ⟨rfl, ?_⟩
  rw [engineStep, List.getElem?_eq_getElem hi]
  rfl

theorem Reaches.next {code : Code n M E} {m : M} {s s' : State n M E} {l : Label n}
    (h : Reaches code m s) (hn : system.next s l = some s') : Reaches code m s' :=
  System.Reachable.next h hn

omit [DecidableEq E] in
theorem syncStep_drop {s : State n M E} {x : Code n M E} (hall : ∀ k, atBarrier (x k) = true) :
    syncStep { s with rest := x } = some { s with rest := fun k => (x k).tail } := by
  rw [syncStep, if_pos hall]

/-- **Splitting at a barrier**: a run is still in front of the barrier, or
    a run up to it has ended and another goes on from there. -/
theorem Reaches.split_barrier {m : M} {s : State n M E} (hdrain : Drained first)
    (hbal : Balanced first) (h : Reaches (fun k => first k ++ .barrier :: tail k) m s) :
    (∃ x : Code n M E, (∀ k, s.rest k = x k ++ .barrier :: tail k) ∧
      Reaches first m { s with rest := x }) ∨
    ∃ m₁, Ends first m m₁ ∧ Reaches tail m₁ s := by
  apply h.invariant
  · exact .inl ⟨first, fun _ => rfl, .init rfl⟩
  · intro s l s' hs hnext
    obtain ⟨x, hrest, hx⟩ | ⟨m₁, hends, htail⟩ := hs
    · match l with
      | .core k =>
        have hstep := coreStep_cases hnext
        by_cases hxk : x k = []
        · -- the core stands at the barrier
          have hk : s.rest k = .barrier :: tail k := by rw [hrest k, hxk]; rfl
          match hstep with
          | .act h => cases h.symm.trans hk
          | .start h => cases h.symm.trans hk
          | .wait h _ => cases h.symm.trans hk
        · obtain ⟨x', hrest', hstep'⟩ := hstep.drop hrest hxk
          exact .inl ⟨x', hrest', hx.next (l := .core k) hstep'⟩
      | .engine i =>
        obtain ⟨hsame, hstep'⟩ := engineStep_drop x hnext
        exact .inl ⟨x, fun k => hsame ▸ hrest k, hx.next (l := .engine i) hstep'⟩
      | .sync =>
        obtain ⟨hall, rfl⟩ := syncStep_cases hnext
        have hbarx : ∀ k, x k ≠ [] → atBarrier (x k) = true := by
          intro k hne
          obtain ⟨op, ops, hxk⟩ := List.exists_cons_of_ne_nil hne
          have hk := hall k
          rw [hrest k, hxk] at hk
          rw [hxk]
          exact hk
        by_cases hsome : ∃ k, x k = []
        · -- one core stands at the barrier of the split, so all of them do
          obtain ⟨k₀, hk₀⟩ := hsome
          have hxnil : ∀ k, x k = [] := by
            intro k
            by_contra hne
            have hcount : barriers (x k) = barriers (x k₀) := hx.balanced hbal k k₀
            rw [hk₀, rest_of_atBarrier (hbarx k hne), barriers, barriers,
              List.countP_cons_of_pos rfl] at hcount
            cases hcount
          have hpending : s.pending = [] := (WillDrain.of_reaches hdrain hx).pending_nil hxnil
          have hafter : (fun k => (s.rest k).tail) = tail := by
            funext k
            rw [hrest k, hxnil k]
            rfl
          refine .inr ⟨s.mem, ⟨_, hx, ⟨hxnil, hpending⟩, rfl⟩, .init ?_⟩
          show State.mk (fun k => (s.rest k).tail) s.mem s.pending = State.mk tail s.mem []
          rw [hafter, hpending]
        · have hne : ∀ k, x k ≠ [] := fun k hk => hsome ⟨k, hk⟩
          have hstep' := syncStep_drop (s := s) fun k => hbarx k (hne k)
          refine .inl ⟨fun k => (x k).tail, ?_, hx.next (l := .sync) hstep'⟩
          intro k
          show (s.rest k).tail = _
          rw [hrest k, List.tail_append_of_ne_nil (hne k)]
    · exact .inr ⟨m₁, hends, htail.next hnext⟩

theorem Ends.split_barrier {m m' : M} (hdrain : Drained first) (hbal : Balanced first)
    (hsome : 0 < n) (h : Ends (fun k => first k ++ .barrier :: tail k) m m') :
    ∃ m₁, Ends first m m₁ ∧ Ends tail m₁ m' := by
  obtain ⟨s, hs, hfin, rfl⟩ := h
  obtain ⟨x, hrest, _⟩ | ⟨m₁, hends, htail⟩ := hs.split_barrier hdrain hbal
  · -- a finished run has passed the barrier
    have hnil := hfin.1 ⟨0, hsome⟩
    rw [hrest] at hnil
    exact absurd hnil (by simp)
  · exact ⟨m₁, hends, s, htail, hfin, rfl⟩

/-- **Splitting after a wait**: where a single core has waited for
    everything, a run splits as at a barrier. -/
theorem Reaches.split_append {first tail : List (Op M E)} {m : M} {s : State 1 M E}
    (hdrain : Drained (fun _ : Fin 1 => first))
    (h : Reaches (fun _ : Fin 1 => first ++ tail) m s) :
    (∃ x : Code 1 M E, (∀ k, s.rest k = x k ++ tail) ∧
      Reaches (fun _ => first) m { s with rest := x }) ∨
    ∃ m₁, Ends (fun _ : Fin 1 => first) m m₁ ∧ Reaches (fun _ : Fin 1 => tail) m₁ s := by
  apply h.invariant
  · exact .inl ⟨fun _ => first, fun _ => rfl, .init rfl⟩
  · intro s l s' hs hnext
    obtain ⟨x, hrest, hx⟩ | ⟨m₁, hends, htail⟩ := hs
    · by_cases hx0 : x 0 = []
      · -- everything has been done: the rest of the code starts here
        have hxnil : ∀ k, x k = [] := fun k => by rw [Fin.fin_one_eq_zero k, hx0]
        have hpending : s.pending = [] := (WillDrain.of_reaches hdrain hx).pending_nil hxnil
        have hstart : s = initial (fun _ => tail) s.mem := by
          have hcode : s.rest = fun _ => tail := by
            funext k
            rw [hrest k, hxnil k, List.nil_append]
          show State.mk s.rest s.mem s.pending = State.mk (fun _ => tail) s.mem []
          rw [hcode, hpending]
        have hinit : Reaches (fun _ : Fin 1 => tail) s.mem s := .init hstart
        exact .inr ⟨s.mem, ⟨_, hx, ⟨hxnil, hpending⟩, rfl⟩, hinit.next hnext⟩
      · left
        match l with
        | .core k =>
          obtain rfl := Fin.fin_one_eq_zero k
          obtain ⟨x', hrest', hstep'⟩ := (coreStep_cases hnext).drop hrest hx0
          exact ⟨x', hrest', hx.next (l := .core 0) hstep'⟩
        | .engine i =>
          obtain ⟨hsame, hstep'⟩ := engineStep_drop x hnext
          exact ⟨x, fun k => hsame ▸ hrest k, hx.next (l := .engine i) hstep'⟩
        | .sync =>
          obtain ⟨hall, rfl⟩ := syncStep_cases hnext
          obtain ⟨op, ops, hxk⟩ := List.exists_cons_of_ne_nil hx0
          have hbar : ∀ k, atBarrier (x k) = true := by
            intro k
            have hk := hall k
            rw [hrest k, Fin.fin_one_eq_zero k, hxk] at hk
            rw [Fin.fin_one_eq_zero k, hxk]
            exact hk
          refine ⟨fun k => (x k).tail, ?_, hx.next (l := .sync) (syncStep_drop (s := s) hbar)⟩
          intro k
          show (s.rest k).tail = (x k).tail ++ tail
          rw [hrest k, Fin.fin_one_eq_zero k, hxk]
          rfl
    · exact .inr ⟨m₁, hends, htail.next hnext⟩

theorem Ends.split_append {first tail : List (Op M E)} {m m' : M}
    (hdrain : Drained (fun _ : Fin 1 => first))
    (h : Ends (fun _ : Fin 1 => first ++ tail) m m') :
    ∃ m₁, Ends (fun _ : Fin 1 => first) m m₁ ∧ Ends (fun _ : Fin 1 => tail) m₁ m' := by
  obtain ⟨s, hs, hfin, rfl⟩ := h
  obtain ⟨x, hrest, hx⟩ | ⟨m₁, hends, htail⟩ := hs.split_append hdrain
  · -- nothing is left of the first part, nor of the second
    have happ : ∀ k, x k ++ tail = [] := fun k => (hrest k).symm.trans (hfin.1 k)
    have hxnil : ∀ k, x k = [] := fun k => (List.append_eq_nil_iff.mp (happ k)).1
    have htail : tail = [] := (List.append_eq_nil_iff.mp (happ 0)).2
    refine ⟨s.mem, ⟨_, hx, ⟨hxnil, hfin.2⟩, rfl⟩, initial (fun _ => tail) s.mem, .init rfl, ?_, rfl⟩
    exact ⟨fun _ => htail, rfl⟩
  · exact ⟨m₁, hends, s, htail, hfin, rfl⟩

end Splitting

/-! ## Section 7: Runs end -/

/-- The steps an operation takes, the engine's included. -/
def Op.steps : Op M E → Nat
  | .start _ tasks => 1 + tasks.length
  | _ => 1

def steps (ops : List (Op M E)) : Nat := (ops.map Op.steps).sum

/-- The steps that are left, at most. -/
def State.steps (s : State n M E) : Nat := (∑ k, Cluster.steps (s.rest k)) + s.pending.length

section Ending

variable {s s' : State n M E}

omit [DecidableEq E] in
theorem steps_update {k : Fin n} {op : Op M E} {ops : List (Op M E)}
    (hrest : s.rest k = op :: ops) :
    (∑ k', steps (Function.update s.rest k ops k')) + op.steps = ∑ k', steps (s.rest k') := by
  have hsum : ∀ code : Code n M E, ∑ k', steps (code k') =
      steps (code k) + ∑ k' ∈ Finset.univ.erase k, steps (code k') :=
    fun code => (Finset.add_sum_erase Finset.univ (fun k' => steps (code k'))
      (Finset.mem_univ k)).symm
  have hothers : ∑ k' ∈ Finset.univ.erase k, steps (Function.update s.rest k ops k') =
      ∑ k' ∈ Finset.univ.erase k, steps (s.rest k') := by
    apply Finset.sum_congr rfl
    intro k' hk'
    rw [Function.update_of_ne (Finset.ne_of_mem_erase hk')]
  have hcons : steps (s.rest k) = op.steps + steps ops := by
    rw [hrest]
    exact List.sum_cons
  rw [hsum, hothers, Function.update_self, hsum s.rest, hcons]
  omega

/-- Every step takes one of the steps that are left. -/
theorem steps_lt (hsome : 0 < n) {l : Label n} (hn : system.next s l = some s') :
    s'.steps < s.steps := by
  match l with
  | .core k =>
    match coreStep_cases hn with
    | .act hrest =>
      have hsum := steps_update hrest
      show (∑ k', steps (Function.update s.rest k _ k')) + s.pending.length <
        (∑ k', steps (s.rest k')) + s.pending.length
      rw [← hsum]
      exact Nat.add_lt_add_right (Nat.lt_add_one _) _
    | .start hrest =>
      have hsum := steps_update hrest
      show (∑ k', steps (Function.update s.rest k _ k')) + (s.pending ++ _).length <
        (∑ k', steps (s.rest k')) + s.pending.length
      rw [← hsum, List.length_append, List.length_map, Op.steps]
      omega
    | .wait hrest _ =>
      have hsum := steps_update hrest
      show (∑ k', steps (Function.update s.rest k _ k')) + s.pending.length <
        (∑ k', steps (s.rest k')) + s.pending.length
      rw [← hsum]
      exact Nat.add_lt_add_right (Nat.lt_add_one _) _
  | .engine i =>
    obtain ⟨hi, rfl⟩ := engineStep_cases hn
    apply Nat.add_lt_add_left
    show (s.pending.eraseIdx i).length < s.pending.length
    rw [List.length_eraseIdx_of_lt hi]
    omega
  | .sync =>
    obtain ⟨hall, rfl⟩ := syncStep_cases hn
    have hlt : ∑ k, steps (s.rest k).tail < ∑ k, steps (s.rest k) := by
      have hone : ∀ k, steps (s.rest k).tail < steps (s.rest k) := by
        intro k
        rw [rest_of_atBarrier (hall k)]
        show steps (s.rest k).tail < 1 + steps (s.rest k).tail
        omega
      exact Finset.sum_lt_sum (fun k _ => (hone k).le) ⟨⟨0, hsome⟩, Finset.mem_univ _, hone _⟩
    exact Nat.add_lt_add_right hlt _

/-- Where nothing moves, nothing is left to do. -/
theorem finished_of_stuck (hbal : Balanced s.rest) (hstuck : system.Stuck s) : Finished s := by
  have hpending : s.pending = [] := by
    by_contra hne
    obtain ⟨t, ts, hcons⟩ := List.exists_cons_of_ne_nil hne
    have hnone := hstuck (.engine 0)
    simp [system, engineStep, hcons] at hnone
  have hheads : ∀ k, s.rest k = [] ∨ atBarrier (s.rest k) = true := by
    intro k
    have hnone : coreStep s k = none := hstuck (.core k)
    match hrest : s.rest k with
    | [] => exact .inl rfl
    | .barrier :: _ => exact .inr rfl
    | .act f :: ops => simp [coreStep, hrest] at hnone
    | .start e fs :: ops => simp [coreStep, hrest] at hnone
    | .wait e :: ops => simp [coreStep, hrest, hpending] at hnone
  refine ⟨?_, hpending⟩
  intro k
  by_contra hk
  -- one core at a barrier means that all cores are
  have hpos : 0 < barriers (s.rest k) := by
    rw [rest_of_atBarrier ((hheads k).resolve_left hk), barriers, List.countP_cons_of_pos rfl]
    exact Nat.succ_pos _
  have hall : ∀ k', atBarrier (s.rest k') = true := by
    intro k'
    apply (hheads k').resolve_left
    intro hnil
    rw [hbal k k', hnil] at hpos
    exact absurd hpos (Nat.lt_irrefl 0)
  have hnone : syncStep s = none := hstuck .sync
  rw [syncStep, if_pos hall] at hnone
  cases hnone

/-- **Runs end**: no run goes on for ever, and one that cannot go on has
    done everything. -/
theorem runs_end (hsome : 0 < n) {code : Code n M E} (hbal : Balanced code) (m : M) :
    system.Terminates (initial code m) ∧
    ∀ s, Reaches code m s → system.Stuck s → Finished s := by
  constructor
  · have hstep : ∀ (s : State n M E) (l : Label n) (s' : State n M E), True →
        system.next s l = some s' → True ∧ s'.steps < s.steps :=
      fun _ _ _ _ hn => ⟨trivial, steps_lt hsome hn⟩
    exact System.terminates_of_measure State.steps hstep trivial
  · exact fun s hs => finished_of_stuck (hs.balanced hbal)

/-- From every state on the way some run goes on to the end. -/
theorem Reaches.goes_on (hsome : 0 < n) {code : Code n M E} (hbal : Balanced code) {m : M}
    (hs : Reaches code m s) : ∃ s', Reaches code m s' ∧ Finished s' := by
  induction hμ : s.steps using Nat.strongRecOn generalizing s with
  | ind μ ih =>
    by_cases hstuck : system.Stuck s
    · exact ⟨s, hs, (runs_end hsome hbal m).2 s hs hstuck⟩
    · obtain ⟨l, hl⟩ := not_forall.mp hstuck
      obtain ⟨s', hn⟩ := Option.ne_none_iff_exists'.mp hl
      exact ih s'.steps (hμ ▸ steps_lt hsome hn) (hs.next hn) rfl

theorem exists_ends (hsome : 0 < n) {code : Code n M E} (hbal : Balanced code) (m : M) :
    ∃ m', Ends code m m' := by
  have hinit : Reaches code m (initial code m) := .init rfl
  obtain ⟨s, hs, hfin⟩ := hinit.goes_on hsome hbal
  exact ⟨s.mem, s, hs, hfin, rfl⟩

end Ending

/-! ## Section 8: Building runs -/

section Building

variable {s s' : State n M E} {first tail : Code n M E}

/-- A step of a core does not look at what comes later. -/
theorem coreStep_extend {k : Fin n} (h : coreStep s k = some s') :
    coreStep { s with rest := fun k => s.rest k ++ tail k } k =
      some { s' with rest := fun k => s'.rest k ++ tail k } := by
  have hupdate : ∀ ops : List (Op M E),
      Function.update (fun k => s.rest k ++ tail k) k (ops ++ tail k) =
        fun k' => Function.update s.rest k ops k' ++ tail k' := by
    intro ops
    funext k'
    by_cases hk : k' = k
    · rw [hk, Function.update_self, Function.update_self]
    · rw [Function.update_of_ne hk, Function.update_of_ne hk]
  unfold coreStep
  match coreStep_cases h with
  | .act hrest => simp only [hrest, List.cons_append, hupdate]
  | .start hrest => simp only [hrest, List.cons_append, hupdate]
  | .wait hrest hdone =>
    have hall : s.pending.all (fun t => t.engine ≠ _) = true :=
      List.all_eq_true.mpr fun t ht => decide_eq_true (hdone t ht)
    simp only [hrest, List.cons_append, hupdate]
    exact if_pos hall

omit [DecidableEq E] in
theorem syncStep_extend (h : syncStep s = some s') :
    syncStep { s with rest := fun k => s.rest k ++ tail k } =
      some { s' with rest := fun k => s'.rest k ++ tail k } := by
  obtain ⟨hall, rfl⟩ := syncStep_cases h
  have hall' : ∀ k, atBarrier (s.rest k ++ tail k) = true := by
    intro k
    rw [rest_of_atBarrier (hall k)]
    rfl
  rw [syncStep_drop hall']
  congr 2
  funext k
  rw [rest_of_atBarrier (hall k)]
  rfl

/-- The runs of the first part are runs of the whole code. -/
theorem Reaches.extend (tail : Code n M E) {m : M} (h : Reaches first m s) :
    Reaches (fun k => first k ++ tail k) m { s with rest := fun k => s.rest k ++ tail k } := by
  apply h.invariant
  · exact .init rfl
  · intro s l s' hs hn
    match l with
    | .core k => exact hs.next (l := .core k) (coreStep_extend hn)
    | .engine i =>
      obtain ⟨hsame, hstep⟩ := engineStep_drop (fun k => s.rest k ++ tail k) hn
      rw [hsame]
      exact hs.next (l := .engine i) hstep
    | .sync => exact hs.next (l := .sync) (syncStep_extend hn)

/-- **Composing runs**: a run of the first part and a run of the rest make a
    run of the whole code. -/
theorem Ends.append {m m₁ m' : M} (h : Ends first m m₁) (h' : Ends tail m₁ m') :
    Ends (fun k => first k ++ tail k) m m' := by
  obtain ⟨s, hs, hfin, rfl⟩ := h
  obtain ⟨s', hs', hfin', rfl⟩ := h'
  have hstart : Reaches (fun k => first k ++ tail k) m (initial tail s.mem) := by
    have hextend := hs.extend tail
    simp only [hfin.1, hfin.2, List.nil_append] at hextend
    exact hextend
  have hrun : Reaches (fun k => first k ++ tail k) m s' :=
    hs'.invariant hstart fun _ _ _ hreach hn => hreach.next hn
  exact ⟨s', hrun, hfin', rfl⟩

end Building

/-! ### Any order -/

def Op.isStart : Op M E → Bool
  | .start _ _ => true
  | _ => false

section AnyOrder

variable {code : Code 1 M E} {s : State 1 M E} {m : M} {ops ops' : List (Op M E)}

omit [DecidableEq E] in
theorem update_one (code : Code 1 M E) (ops : List (Op M E)) :
    Function.update code 0 ops = fun _ => ops := by
  funext k
  rw [Fin.fin_one_eq_zero k, Function.update_self]

/-- Tasks are started before any of them is done. -/
theorem Reaches.starts (h : Reaches code m s) (hstart : ∀ op ∈ ops, op.isStart = true)
    (hrest : s.rest 0 = ops ++ ops') :
    ∃ ts : List (Task 1 M E), ts.map Task.run = work ops ∧
      Reaches code m { rest := fun _ => ops', mem := s.mem, pending := s.pending ++ ts } := by
  induction ops generalizing s with
  | nil =>
    have hcode : s.rest = fun _ => ops' := by
      funext k
      rw [Fin.fin_one_eq_zero k]
      exact hrest
    refine ⟨[], rfl, ?_⟩
    rw [List.append_nil, ← hcode]
    exact h
  | cons op ops ih =>
    match op, hstart op List.mem_cons_self with
    | .start e fs, _ =>
      have hstep : coreStep s 0 = some
          { rest := fun _ => ops ++ ops', mem := s.mem
            pending := s.pending ++ fs.map (fun f => ⟨0, e, f⟩) } := by
        simp only [coreStep, hrest, List.cons_append, update_one]
      obtain ⟨ts, hts, hreach⟩ := ih (h.next (l := .core 0) hstep)
        (fun op hop => hstart op (List.mem_cons_of_mem _ hop)) rfl
      refine ⟨fs.map (fun f => ⟨0, e, f⟩) ++ ts, ?_, ?_⟩
      · rw [List.map_append, hts, List.map_map]
        exact congrArg (· ++ work ops) (List.map_id fs)
      · rw [← List.append_assoc]
        exact hreach

/-- The engines may do their tasks in any order. -/
theorem Reaches.performs {fs : List (M → M)} (h : Reaches code m s)
    (hperm : fs.Perm (s.pending.map Task.run)) :
    Reaches code m { s with mem := perform fs s.mem, pending := [] } := by
  induction fs generalizing s with
  | nil =>
    have hnil : s.pending = [] := List.map_eq_nil_iff.mp (List.nil_perm.mp hperm)
    rw [perform_nil, ← hnil]
    exact h
  | cons f fs ih =>
    obtain ⟨t, ht, hrun⟩ := List.mem_map.mp (hperm.subset List.mem_cons_self)
    obtain ⟨i, hi, rfl⟩ := List.getElem_of_mem ht
    -- the next task is somewhere among those that have been started
    have hstep : engineStep s i = some
        { s with mem := f s.mem, pending := s.pending.eraseIdx i } := by
      rw [engineStep, List.getElem?_eq_getElem hi, ← hrun]
      rfl
    apply ih (h.next (l := .engine i) hstep)
    have hfirst : (s.pending.map Task.run).Perm (f :: (s.pending.eraseIdx i).map Task.run) := by
      rw [← hrun, ← List.map_cons]
      exact (List.getElem_cons_eraseIdx_perm hi).symm.map _
    exact (List.perm_cons f).mp (hperm.trans hfirst)

theorem Reaches.waits {es : List E} (h : Reaches code m s) (hrest : s.rest 0 = es.map .wait)
    (hpending : s.pending = []) :
    Reaches code m { rest := fun _ => [], mem := s.mem, pending := [] } := by
  induction es generalizing s with
  | nil =>
    have hcode : s.rest = fun _ => [] := by
      funext k
      rw [Fin.fin_one_eq_zero k]
      exact hrest
    rw [← hcode, ← hpending]
    exact h
  | cons e es ih =>
    have hstep : coreStep s 0 = some { s with rest := fun _ => es.map .wait } := by
      simp only [coreStep, hrest, List.map_cons, update_one, hpending, List.all_nil, if_true]
    exact ih (s := { s with rest := fun _ => es.map .wait }) (h.next (l := .core 0) hstep)
      rfl hpending

/-- **Any order**: tasks that are started without a wait in between may be
    done in any order. -/
theorem ends_of_perm {es : List E} {fs : List (M → M)} (hstart : ∀ op ∈ ops, op.isStart = true)
    (hperm : fs.Perm (work ops)) (m : M) :
    Ends (fun _ : Fin 1 => ops ++ es.map .wait) m (perform fs m) := by
  have hinit : Reaches (fun _ : Fin 1 => ops ++ es.map .wait) m (initial _ m) := .init rfl
  obtain ⟨ts, hts, hstarted⟩ := hinit.starts hstart rfl
  have hpending : fs.Perm (([] ++ ts).map Task.run) := by
    rw [List.nil_append, hts]
    exact hperm
  have hdone := hstarted.performs hpending
  exact ⟨_, hdone.waits rfl rfl, ⟨fun _ => rfl, rfl⟩, rfl⟩

end AnyOrder

end Cluster
