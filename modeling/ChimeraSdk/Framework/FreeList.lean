import Mathlib.Data.List.Basic
import Mathlib.Data.List.Range
import Mathlib.Data.List.Perm.Subperm

/-! # First Fit in a Linked List

    Nodes are numbers, zero ends a list, and the links and sizes of the
    nodes are two functions: whatever memory they are read from.  The
    search returns the first node that is large enough, together with the
    node whose link leads to it.

    What such a list is for is said by a `Pool`: the free nodes in order,
    and the place up to which fresh nodes have been carved. -/

namespace FreeList

/-- `Chain next h l`: following `next` from `h` visits `l` and ends. -/
inductive Chain (next : Nat → Nat) : Nat → List Nat → Prop where
  | nil : Chain next 0 []
  | cons {a : Nat} {l : List Nat} : a ≠ 0 → Chain next (next a) l → Chain next a (a :: l)

namespace Chain

variable {next next' : Nat → Nat} {h : Nat} {l : List Nat}

/-- A chain depends on the links of its nodes only. -/
theorem frame (hc : Chain next h l) (heq : ∀ a ∈ l, next' a = next a) : Chain next' h l := by
  induction hc with
  | nil => exact .nil
  | cons hne _ ih =>
    refine .cons hne ?_
    rw [heq _ List.mem_cons_self]
    exact ih (fun a ha => heq a (List.mem_cons_of_mem _ ha))

theorem eq_zero (hc : Chain next h []) : h = 0 := by
  cases hc with
  | nil => rfl

theorem head_eq {a : Nat} (hc : Chain next h (a :: l)) : h = a ∧ a ≠ 0 ∧ Chain next (next a) l := by
  cases hc with
  | cons hne hrest => exact ⟨rfl, hne, hrest⟩

theorem ne_zero (hc : Chain next h l) : ∀ a ∈ l, a ≠ 0 := by
  induction hc with
  | nil => intro a ha; cases ha
  | cons hne _ ih =>
    intro a ha
    rcases List.mem_cons.mp ha with rfl | ha
    · exact hne
    · exact ih a ha

/-- Taking a node out of a list keeps the other nodes. -/
theorem mem_of_mem_unlinked {α : Type} {pre post : List α} {a b : α} (ha : a ∈ pre ++ post) :
    a ∈ pre ++ b :: post :=
  ((List.sublist_cons_self b post).append_left pre).subset ha

/-- Redirecting the link of the node before `b` to the node after it takes
    `b` out of the chain. -/
theorem unlink {pre post : List Nat} {c b : Nat} (hc : Chain next h (pre ++ c :: b :: post))
    (hlink : next' c = next b) (heq : ∀ a ∈ pre ++ post, next' a = next a) :
    Chain next' h (pre ++ c :: post) := by
  induction pre generalizing h with
  | nil =>
    obtain ⟨rfl, hne, hb⟩ := head_eq hc
    obtain ⟨_, _, hpost⟩ := head_eq hb
    refine .cons hne ?_
    rw [hlink]
    exact hpost.frame heq
  | cons a pre ih =>
    obtain ⟨rfl, hne, hrest⟩ := head_eq hc
    refine .cons hne ?_
    rw [heq _ List.mem_cons_self]
    exact ih hrest (fun x hx => heq x (List.mem_cons_of_mem _ hx))

/-- Two chains from one node are the same. -/
theorem unique {l' : List Nat} (hc : Chain next h l) (hc' : Chain next h l') : l = l' := by
  induction hc generalizing l' with
  | nil =>
    cases l' with
    | nil => rfl
    | cons a l' =>
      obtain ⟨h0, hne, _⟩ := hc'.head_eq
      exact absurd h0.symm hne
  | cons hne _ ih =>
    cases l' with
    | nil => exact absurd hc'.eq_zero hne
    | cons a l' =>
      obtain ⟨rfl, _, hrest⟩ := hc'.head_eq
      rw [ih hrest]

/-- From a node on, a chain is a chain. -/
theorem suffix {pre post : List Nat} {b : Nat} (hc : Chain next h (pre ++ b :: post)) :
    Chain next b (b :: post) := by
  induction pre generalizing h with
  | nil =>
    obtain ⟨rfl, hne, hrest⟩ := hc.head_eq
    exact .cons hne hrest
  | cons a pre ih => exact ih hc.head_eq.2.2

/-- A chain that ends does not visit a node twice. -/
theorem nodup (hc : Chain next h l) : l.Nodup := by
  induction hc with
  | nil => exact List.nodup_nil
  | @cons a l hne hrest ih =>
    refine List.nodup_cons.mpr ⟨fun hmem => ?_, ih⟩
    obtain ⟨pre, post, rfl⟩ := List.append_of_mem hmem
    -- the chain from the second visit is the whole chain
    have hlen := congrArg List.length ((Chain.cons hne hrest).unique hrest.suffix)
    simp only [List.length_cons, List.length_append] at hlen
    omega

/-- A chain of numbers below `m` is shorter than `m`: with zero, they are
    distinct. -/
theorem length_lt {m : Nat} (hc : Chain next h l) (hm : 0 < m) (hlt : ∀ a ∈ l, a < m) :
    l.length < m := by
  have hsub : (0 :: l) ⊆ List.range m := by
    intro a ha
    rw [List.mem_range]
    rcases List.mem_cons.mp ha with rfl | ha
    · exact hm
    · exact hlt a ha
  have hnd : (0 :: l).Nodup := List.nodup_cons.mpr ⟨fun h0 => hc.ne_zero 0 h0 rfl, hc.nodup⟩
  have hlen := (hnd.subperm hsub).length_le
  rw [List.length_cons, List.length_range] at hlen
  omega

end Chain

/-- The search loop: `prev` is the node whose link holds `curr`, if it is
    not the head of the list.  `none` is a search that does not end within
    the fuel. -/
def firstFit (next size : Nat → Nat) (n : Nat) :
    Nat → Option Nat → Nat → Option (Option (Option Nat × Nat))
  | 0, _, _ => none
  | fuel + 1, prev, curr =>
      if curr = 0 then some none
      else if size curr ≥ n then some (some (prev, curr))
      else firstFit next size n fuel (some curr) (next curr)

/-- What a search of a chain finds: nothing, when every node is too small,
    or the first node that is large enough. -/
inductive Found (size : Nat → Nat) (n : Nat) (prev : Option Nat) (l : List Nat) :
    Option (Option Nat × Nat) → Prop where
  | nothing : (∀ a ∈ l, size a < n) → Found size n prev l none
  | node (pre post : List Nat) (b : Nat) : l = pre ++ b :: post → (∀ a ∈ pre, size a < n) →
      n ≤ size b → Found size n prev l (some (pre.getLast?.or prev, b))

/-- With fuel for one visit of every node the search ends, and finds the
    first fit. -/
theorem firstFit_found {next size : Nat → Nat} {n : Nat} {l : List Nat} {h : Nat}
    (hc : Chain next h l) :
    ∀ {fuel : Nat} (prev : Option Nat), l.length < fuel →
      ∃ r, firstFit next size n fuel prev h = some r ∧ Found size n prev l r := by
  induction hc with
  | nil =>
    intro fuel prev hfuel
    obtain ⟨fuel, rfl⟩ := Nat.exists_eq_succ_of_ne_zero (Nat.ne_of_gt hfuel)
    exact ⟨none, by simp [firstFit], .nothing (by simp)⟩
  | @cons a l hne _ ih =>
    intro fuel prev hfuel
    obtain ⟨fuel, rfl⟩ := Nat.exists_eq_succ_of_ne_zero (Nat.ne_of_gt (by omega : 0 < fuel))
    rw [List.length_cons] at hfuel
    -- either the first node fits, or the search goes on behind it
    by_cases hfit : size a ≥ n
    · exact ⟨some (prev, a), by simp [firstFit, hne, hfit], .node [] l a rfl (by simp) hfit⟩
    · obtain ⟨r, hr, hfound⟩ := ih (some a) (by omega : l.length < fuel)
      refine ⟨r, by simp [firstFit, hne, hfit, hr], ?_⟩
      have hsmall : size a < n := by omega
      cases hfound with
      | nothing hall =>
        refine .nothing ?_
        intro x hx
        rcases List.mem_cons.mp hx with rfl | hx
        · exact hsmall
        · exact hall x hx
      | node pre post b hl hpre hb =>
        have hlast : (pre.getLast?).or (some a) = ((a :: pre).getLast?).or prev := by
          cases pre with
          | nil => rfl
          | cons x xs => simp [List.getLast?_cons]
        rw [hlast]
        refine .node (a :: pre) post b (by rw [hl]; rfl) ?_ hb
        intro x hx
        rcases List.mem_cons.mp hx with rfl | hx
        · exact hsmall
        · exact hpre x hx

/-! ## The pool

    An allocator as its clients see it. -/

/-- A free node and its size. -/
structure Node where
  addr : Nat
  size : Nat
  deriving DecidableEq, Repr

/-- The free nodes in order, and the start of what is not carved yet. -/
structure Pool where
  free : List Node
  bump : Nat
  deriving DecidableEq, Repr

/-- The node is large enough for a request. -/
def Node.fits (size : Nat) (b : Node) : Bool := size ≤ b.size

namespace Pool

/-- First fit: the first free node that is large enough leaves the pool.
    If there is none, `total` bytes are carved, unless they end after
    `end_`. -/
def malloc (p : Pool) (total end_ size : Nat) : Pool × Option Nat :=
  match p.free.find? (Node.fits size) with
  | some b => ({ p with free := p.free.eraseP (Node.fits size) }, some b.addr)
  | none =>
      if end_ < p.bump + total then (p, none)
      else ({ p with bump := p.bump + total }, some p.bump)

/-- Freed nodes become the first of the list. -/
def push (p : Pool) (b : Node) : Pool := { p with free := b :: p.free }

variable {p : Pool} {total end_ size : Nat}

theorem malloc_reuse (total end_ : Nat) {pre post : List Node} {b : Node}
    (hfree : p.free = pre ++ b :: post) (hpre : ∀ c ∈ pre, c.size < size) (hb : size ≤ b.size) :
    p.malloc total end_ size = ({ p with free := pre ++ post }, some b.addr) := by
  have hsmall : ∀ c ∈ pre, ¬ Node.fits size c = true :=
    fun c hc => by simpa [Node.fits] using hpre c hc
  have hfit : Node.fits size b = true := decide_eq_true hb
  have hfind : p.free.find? (Node.fits size) = some b := by
    rw [hfree, List.find?_append, List.find?_eq_none.mpr hsmall, List.find?_cons_of_pos hfit]
    rfl
  have herase : p.free.eraseP (Node.fits size) = pre ++ post := by
    rw [hfree, List.eraseP_append_right _ hsmall, List.eraseP_cons_of_pos hfit]
  simp only [malloc, hfind, herase]

theorem malloc_bump (total end_ : Nat) (hsmall : ∀ b ∈ p.free, b.size < size) :
    p.malloc total end_ size =
      if end_ < p.bump + total then (p, none)
      else ({ p with bump := p.bump + total }, some p.bump) := by
  have hfind : p.free.find? (Node.fits size) = none := by
    rw [List.find?_eq_none]
    exact fun b hb => by simpa [Node.fits] using hsmall b hb
  simp only [malloc, hfind]

/-- What has been freed last is what a request it fits gets. -/
theorem malloc_push {b : Node} (hb : size ≤ b.size) :
    (p.push b).malloc total end_ size = (p, some b.addr) := by
  have hfirst : (p.push b).free = [] ++ b :: p.free := rfl
  rw [malloc_reuse total end_ hfirst (by simp) hb]
  rfl

end Pool

end FreeList
