import Mathlib.Logic.Function.Basic

/-! # Mutexes behind a Pointer

    Parties share one pointer to a lock word.  A party loads the pointer,
    spins on the word it leads to, holds the mutex once its test-and-set
    succeeds, loads the pointer again to release it, and stores zero to
    the word it then has.  Every operation goes through the pointer, so
    exclusion is a property of the pointer as much as of the word: it
    holds as long as the pointer is redirected, and words are cleared,
    only while nobody uses the mutex. -/

namespace Mutex

/-- What a party is doing with the mutex.  `spinning` and `leaving` carry
    the pointer the party has loaded. -/
inductive View (A : Type) where
  | outside
  | spinning (mutex : A)
  | holding
  | leaving (mutex : A)
  deriving DecidableEq, Repr

/-- The party is between the end of its acquire and the end of its
    release. -/
def View.inSection {A : Type} : View A → Bool
  | .holding => true
  | .leaving _ => true
  | _ => false

/-- The pointer the party has loaded and is about to use. -/
def View.loaded {A : Type} : View A → Option A
  | .spinning mutex => some mutex
  | .leaving mutex => some mutex
  | _ => none

variable {A κ : Type}

/-- **Invariant**: what parties have loaded is the present pointer, one
    party at most is in the section, and while one is, the word the
    pointer leads to is taken. -/
structure Inv (view : κ → View A) (ptr : Option A) (lock : A → Bool) : Prop where
  loaded : ∀ k mutex, (view k).loaded = some mutex → ptr = some mutex
  exclusive : ∀ k k', (view k).inSection = true → (view k').inSection = true → k = k'
  taken : ∀ k, (view k).inSection = true → ∃ mutex, ptr = some mutex ∧ lock mutex = true

namespace Inv

variable {view : κ → View A} {ptr : Option A} {lock : A → Bool}

/-- With every party outside, the pointer and the words are free to
    change. -/
theorem of_outside (hout : ∀ k, view k = .outside) (ptr : Option A) (lock : A → Bool) :
    Inv view ptr lock where
  loaded := fun k mutex hk => by rw [hout k] at hk; cases hk
  exclusive := fun k k' hk => by rw [hout k] at hk; cases hk
  taken := fun k hk => by rw [hout k] at hk; cases hk

variable [DecidableEq κ] {k : κ}

/-- A party that moves to a view in which it is not in the section, with
    nothing but the present pointer loaded. -/
theorem update_outside (hi : Inv view ptr lock) {v : View A} (hv : v.inSection = false)
    (hl : ∀ mutex, v.loaded = some mutex → ptr = some mutex) :
    Inv (Function.update view k v) ptr lock := by
  have hin : ∀ k', (Function.update view k v k').inSection = true →
      (view k').inSection = true := by
    intro k' hk'
    by_cases hne : k' = k
    · rw [hne, Function.update_self, hv] at hk'
      cases hk'
    · rwa [Function.update_of_ne hne] at hk'
  refine ⟨?_, fun k k' hk hk' => hi.exclusive k k' (hin k hk) (hin k' hk'),
    fun k' hk' => hi.taken k' (hin k' hk')⟩
  intro k' mutex hk'
  by_cases hne : k' = k
  · rw [hne, Function.update_self] at hk'
    exact hl mutex hk'
  · rw [Function.update_of_ne hne] at hk'
    exact hi.loaded k' mutex hk'

/-- Loading the pointer to acquire the mutex. -/
theorem enter (hi : Inv view ptr lock) {mutex : A} (hptr : ptr = some mutex) :
    Inv (Function.update view k (.spinning mutex)) ptr lock := by
  refine hi.update_outside rfl ?_
  intro mutex' hl
  cases hl
  exact hptr

/-- A successful test-and-set: nobody else is in the section, for the word
    was free. -/
theorem take [DecidableEq A] (hi : Inv view ptr lock) {mutex : A}
    (hspin : view k = .spinning mutex) (hfree : lock mutex = false) :
    Inv (Function.update view k .holding) ptr (Function.update lock mutex true) := by
  have hptr : ptr = some mutex := hi.loaded k mutex (by rw [hspin]; rfl)
  have hnone : ∀ k', (view k').inSection = false := by
    intro k'
    by_contra hk'
    -- a party in the section would have the word taken
    obtain ⟨mutex', hptr', htaken⟩ := hi.taken k' (by simpa using hk')
    rw [hptr, Option.some.injEq] at hptr'
    rw [← hptr', hfree] at htaken
    cases htaken
  have honly : ∀ k', (Function.update view k .holding k').inSection = true → k' = k := by
    intro k' hk'
    by_contra hne
    rw [Function.update_of_ne hne, hnone k'] at hk'
    cases hk'
  refine ⟨?_, fun k₁ k₂ h₁ h₂ => (honly k₁ h₁).trans (honly k₂ h₂).symm, ?_⟩
  · intro k' mutex' hk'
    by_cases hne : k' = k
    · rw [hne, Function.update_self] at hk'
      cases hk'
    · rw [Function.update_of_ne hne] at hk'
      exact hi.loaded k' mutex' hk'
  · intro k' _
    exact ⟨mutex, hptr, by rw [Function.update_self]⟩

/-- Loading the pointer to release the mutex. -/
theorem leave (hi : Inv view ptr lock) {mutex : A} (hhold : view k = .holding)
    (hptr : ptr = some mutex) :
    Inv (Function.update view k (.leaving mutex)) ptr lock := by
  have hin : ∀ k', (Function.update view k (.leaving mutex) k').inSection = true →
      (view k').inSection = true := by
    intro k' hk'
    by_cases hne : k' = k
    · rw [hne, hhold]; rfl
    · rwa [Function.update_of_ne hne] at hk'
  refine ⟨?_, fun k k' hk hk' => hi.exclusive k k' (hin k hk) (hin k' hk'),
    fun k' hk' => hi.taken k' (hin k' hk')⟩
  intro k' mutex' hk'
  by_cases hne : k' = k
  · rw [hne, Function.update_self] at hk'
    cases hk'
    exact hptr
  · rw [Function.update_of_ne hne] at hk'
    exact hi.loaded k' mutex' hk'

/-- The store that releases the mutex: the party that leaves was alone in
    the section, so nobody relies on the word any more. -/
theorem drop [DecidableEq A] (hi : Inv view ptr lock) {mutex : A}
    (hleave : view k = .leaving mutex) :
    Inv (Function.update view k .outside) ptr (Function.update lock mutex false) := by
  have hout := hi.update_outside (k := k) (v := .outside) rfl (by intro _ h; cases h)
  have hnone : ∀ k', (Function.update view k .outside k').inSection = false := by
    intro k'
    by_cases hne : k' = k
    · rw [hne, Function.update_self]; rfl
    · rw [Function.update_of_ne hne]
      by_contra hk'
      exact hne (hi.exclusive k' k (by simpa using hk') (by rw [hleave]; rfl))
  exact ⟨hout.loaded, hout.exclusive, fun k' hk' => by rw [hnone k'] at hk'; cases hk'⟩

end Inv

end Mutex
