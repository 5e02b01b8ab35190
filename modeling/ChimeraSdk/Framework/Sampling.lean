import Mathlib.Order.Monotone.Basic

/-! # Calls That Sample a Changing Environment

    A call reads its environment access by access, and the environment
    moves on between any two accesses.  The call is given by what one
    access does: from the environment at that instant and from where the
    call stands it computes either where it stands next or the value it
    returns.  The environment is a trajectory `env`, indexed by accesses.

    * **Visits**: where the call stands before its access number `m`.
    * **Returns**: the value the access number `m` makes it return.
    * **Calls within calls**: a caller stands where its callee stands.
    * **Invariant rule**: what the entry satisfies and every access
      preserves holds wherever the call stands.
    * **Replay**: a call evaluated on a concrete trajectory. -/

namespace Sampling

universe u v w

variable {Env : Type u} {Pc : Type v} {Value : Type w}

/-- The call entered at `pc₀` with access number `n` stands at `pc`
    before its access number `m`. -/
inductive Visits (access : Env → Pc → Pc ⊕ Value) (env : Nat → Env) (n : Nat) (pc₀ : Pc) :
    Nat → Pc → Prop where
  | entry : Visits access env n pc₀ n pc₀
  | access : ∀ {m pc pc'}, Visits access env n pc₀ m pc → access (env m) pc = .inl pc' →
      Visits access env n pc₀ (m + 1) pc'

/-- The call returns `v` by its access number `m`. -/
def Returns (access : Env → Pc → Pc ⊕ Value) (env : Nat → Env) (n : Nat) (pc₀ : Pc)
    (m : Nat) (v : Value) : Prop :=
  ∃ pc, Visits access env n pc₀ m pc ∧ access (env m) pc = .inr v

variable {access : Env → Pc → Pc ⊕ Value} {env : Nat → Env} {n m : Nat} {pc₀ pc pc' : Pc}
  {v : Value}

/-- **Invariant rule**: a property of the entry that every access
    preserves holds wherever the call stands. -/
theorem Visits.invariant {inv : Nat → Pc → Prop} (hentry : inv n pc₀)
    (hstep : ∀ m pc pc', inv m pc → access (env m) pc = .inl pc' → inv (m + 1) pc')
    (h : Visits access env n pc₀ m pc) : inv m pc := by
  induction h with
  | entry => exact hentry
  | access _ ha ih => exact hstep _ _ _ ih ha

theorem Visits.le (h : Visits access env n pc₀ m pc) : n ≤ m := by
  induction h with
  | entry => exact Nat.le_refl n
  | access _ _ ih => exact Nat.le_succ_of_le ih

/-- The first access of a call, put before what follows it. -/
theorem Visits.head {pc₁ : Pc} (ha : access (env n) pc₀ = .inl pc₁)
    (h : Visits access env (n + 1) pc₁ m pc) : Visits access env n pc₀ m pc := by
  induction h with
  | entry => exact .access .entry ha
  | access _ hstep ih => exact .access ih hstep

theorem Returns.head {pc₁ : Pc} (ha : access (env n) pc₀ = .inl pc₁)
    (h : Returns access env (n + 1) pc₁ m v) : Returns access env n pc₀ m v := by
  obtain ⟨pc, hvisits, hret⟩ := h
  exact ⟨pc, hvisits.head ha, hret⟩

/-! ### Calls within calls -/

theorem Visits.trans {k : Nat} (h : Visits access env n pc₀ m pc)
    (h' : Visits access env m pc k pc') : Visits access env n pc₀ k pc' := by
  induction h' with
  | entry => exact h
  | access _ hstep ih => exact .access ih hstep

theorem Visits.returns {k : Nat} (h : Visits access env n pc₀ m pc)
    (h' : Returns access env m pc k v) : Returns access env n pc₀ k v := by
  obtain ⟨pc', hvisits, hret⟩ := h'
  exact ⟨pc', h.trans hvisits, hret⟩

/-- A caller that does what its callee does, as long as that runs, stands
    where the callee stands. -/
theorem Visits.within {Pc' : Type} {Value' : Type} {caller : Env → Pc' → Pc' ⊕ Value'}
    (stand : Pc → Pc')
    (hcall : ∀ e pc pc', access e pc = .inl pc' → caller e (stand pc) = .inl (stand pc'))
    (h : Visits access env n pc₀ m pc) : Visits caller env n (stand pc₀) m (stand pc) := by
  induction h with
  | entry => exact .entry
  | access _ hstep ih => exact .access ih (hcall _ _ _ hstep)

/-! ### Parts of an environment -/

/-- A call that looks at one part of its environment is a call in the
    trajectory of that part. -/
theorem Visits.of_part {Part : Type} {part : Env → Part} {access : Part → Pc → Pc ⊕ Value}
    (h : Visits (fun e => access (part e)) env n pc₀ m pc) :
    Visits access (fun i => part (env i)) n pc₀ m pc := by
  induction h with
  | entry => exact .entry
  | access _ ha ih => exact .access ih ha

theorem Returns.of_part {Part : Type} {part : Env → Part} {access : Part → Pc → Pc ⊕ Value}
    (h : Returns (fun e => access (part e)) env n pc₀ m v) :
    Returns access (fun i => part (env i)) n pc₀ m v := by
  obtain ⟨pc, hvisits, hret⟩ := h
  exact ⟨pc, hvisits.of_part, hret⟩

/-! ### Evaluation -/

variable (access env) in
/-- Evaluates a call for a number of accesses: the number of its last
    access, with the value it returns. -/
def run : Nat → Nat → Pc → Option (Nat × Value)
  | 0, _, _ => none
  | fuel + 1, n, pc =>
      match access (env n) pc with
      | .inl pc' => run fuel (n + 1) pc'
      | .inr v => some (n, v)

/-- What evaluation finds, the call returns. -/
theorem returns_of_run (fuel : Nat) (h : run access env fuel n pc₀ = some (m, v)) :
    Returns access env n pc₀ m v := by
  induction fuel generalizing n pc₀ with
  | zero => cases h
  | succ fuel ih =>
    unfold run at h
    cases ha : access (env n) pc₀ with
    | inl pc₁ =>
      rw [ha] at h
      exact (ih h).head ha
    | inr v' =>
      rw [ha] at h
      cases h
      exact ⟨pc₀, .entry, ha⟩

end Sampling
