import Mathlib.Data.List.Basic
import Mathlib.Logic.Function.Basic

/-! # Backtracking Regular Expressions

    The part of a backtracking engine that a scanner of lines needs:
    characters of a class and their greedy repetition, an optional part,
    capturing groups and anchors.  A match is computed in
    continuation-passing style, so that what follows a repetition decides
    how much the repetition takes. -/

namespace Regex

/-- What the groups have captured. -/
abbrev Groups : Type := Nat → Option (List Char)

/-- A position in the text: the character before it and the text behind
    it, with the groups captured on the way there. -/
structure State where
  before : Option Char
  rest : List Char
  groups : Groups

inductive Re where
  /-- `^` with the flag `MULTILINE` -/
  | lineStart
  /-- `$` at the end of the text -/
  | textEnd
  /-- One character of a class. -/
  | char (p : Char → Bool)
  /-- `[...]+`, greedy -/
  | plus (p : Char → Bool)
  /-- `(...)`, the group of number `i` -/
  | group (i : Nat) (r : Re)
  /-- `(?:...)?`, greedy -/
  | optional (r : Re)
  | seq (r q : Re)

/-- A repetition tries the longest run of the class first. -/
def plusLoop (p : Char → Bool) (groups : Groups) (k : State → Option State) :
    List Char → Option State
  | [] => none
  | c :: cs =>
      if p c then
        match plusLoop p groups k cs with
        | some t => some t
        | none => k { before := some c, rest := cs, groups := groups }
      else none

def run : Re → (State → Option State) → State → Option State
  | .lineStart, k, s => if s.before = none ∨ s.before = some '\n' then k s else none
  | .textEnd, k, s => if s.rest = [] then k s else none
  | .char p, k, s =>
      match s.rest with
      | [] => none
      | c :: cs => if p c then k { s with before := some c, rest := cs } else none
  | .plus p, k, s => plusLoop p s.groups k s.rest
  | .group i r, k, s => run r (fun t => k { t with
      groups := Function.update t.groups i
        (some (s.rest.take (s.rest.length - t.rest.length))) }) s
  | .optional r, k, s =>
      match run r k s with
      | some t => some t
      | none => k s
  | .seq r q, k, s => run r (run q k) s

/-- A match that starts at the given position. -/
def matchAt (r : Re) (before : Option Char) (rest : List Char) : Option State :=
  run r some { before := before, rest := rest, groups := fun _ => none }

/-- The groups of all matches from left to right.  `skip` counts the
    characters that the last match has still to cover. -/
def finditer (r : Re) : Option Char → Nat → List Char → List Groups
  | before, skip, [] =>
      if skip = 0 then ((matchAt r before []).map (·.groups)).toList else []
  | before, skip, c :: cs =>
      if skip = 0 then
        match matchAt r before (c :: cs) with
        | some t => t.groups :: finditer r (some c) ((c :: cs).length - t.rest.length - 1) cs
        | none => finditer r (some c) 0 cs
      else finditer r (some c) (skip - 1) cs

/-! ## Section 1: Repetitions -/

variable {p : Char → Bool} {groups : Groups} {k : State → Option State} {w rest : List Char}

/-- The rest of a text does not continue a run of the class. -/
def Stops (p : Char → Bool) (rest : List Char) : Prop := ∀ c, rest.head? = some c → p c = false

theorem stops_nil : Stops p [] := by
  intro c hc
  cases hc

theorem stops_cons {c : Char} (hc : p c = false) : Stops p (c :: rest) := by
  intro d hd
  obtain rfl := Option.some.inj hd
  exact hc

theorem stops_of_forall (h : ∀ c ∈ rest, p c = false) : Stops p rest :=
  fun c hc => h c (List.mem_of_mem_head? hc)

theorem plusLoop_stops (h : Stops p rest) : plusLoop p groups k rest = none := by
  cases rest with
  | nil => rfl
  | cons c cs => simp [plusLoop, h c rfl]

theorem stops_append (hw : w ≠ []) (hp : ∀ c ∈ w, p c = false) : Stops p (w ++ rest) := by
  cases w with
  | nil => exact absurd rfl hw
  | cons c w => exact stops_cons (hp c List.mem_cons_self)

/-- A run of the class ends before the rest that stops it. -/
theorem Stops.split {pre post : List Char} (hstop : Stops p rest) (heq : w ++ rest = pre ++ post)
    (hpre : ∀ c ∈ pre, p c = true) : ∃ s, w = pre ++ s ∧ post = s ++ rest := by
  rcases List.append_eq_append_iff.mp heq with ⟨s, hs, hrest⟩ | ⟨s, hs, hpost⟩
  · cases s with
    | nil => exact ⟨[], by simpa using hs.symm, by simpa using hrest.symm⟩
    | cons c s =>
      have htrue := hpre c (by rw [hs]; simp)
      have hfalse := hstop c (by rw [hrest]; rfl)
      rw [htrue] at hfalse
      cases hfalse
  · exact ⟨s, hs, hpost⟩

/-- Where the continuation succeeds behind the longest run, the longest
    run is taken. -/
theorem plusLoop_longest {t : State} (hw : w ≠ []) (hp : ∀ c ∈ w, p c = true)
    (hstop : Stops p rest)
    (hk : k { before := w.getLast?, rest := rest, groups := groups } = some t) :
    plusLoop p groups k (w ++ rest) = some t := by
  induction w with
  | nil => exact absurd rfl hw
  | cons c w ih =>
    obtain ⟨hc, hp⟩ := List.forall_mem_cons.mp hp
    simp only [List.cons_append, plusLoop, hc, if_true]
    cases w with
    | nil =>
      rw [List.nil_append, plusLoop_stops hstop]
      exact hk
    | cons d w =>
      rw [List.getLast?_cons_cons] at hk
      rw [ih (List.cons_ne_nil _ _) hp hk]

/-- A repetition fails when the continuation fails behind every run. -/
theorem plusLoop_none
    (h : ∀ pre c post, rest = pre ++ c :: post → (∀ x ∈ pre, p x = true) → p c = true →
      k { before := some c, rest := post, groups := groups } = none) :
    plusLoop p groups k rest = none := by
  induction rest with
  | nil => rfl
  | cons c cs ih =>
    by_cases hc : p c = true
    · have hcs : plusLoop p groups k cs = none := by
        apply ih
        intro pre d post heq hpre hd
        refine h (c :: pre) d post (by rw [heq]; rfl) ?_ hd
        exact List.forall_mem_cons.mpr ⟨hc, hpre⟩
      simp only [plusLoop, hc, if_true, hcs]
      exact h [] c cs rfl (by simp) hc
    · simp [plusLoop, hc]

/-- Before a rest that stops the class, the runs are the beginnings of the
    word. -/
theorem plusLoop_none_of_stops (hstop : Stops p rest)
    (h : ∀ pre c post, w = pre ++ c :: post →
      k { before := some c, rest := post ++ rest, groups := groups } = none) :
    plusLoop p groups k (w ++ rest) = none := by
  apply plusLoop_none
  intro pre c post heq hpre hc
  have hrun : ∀ x ∈ pre ++ [c], p x = true :=
    List.forall_mem_append.mpr ⟨hpre, List.forall_mem_singleton.mpr hc⟩
  obtain ⟨s, hsplit, rfl⟩ := hstop.split (heq.trans (List.append_cons pre c post)) hrun
  exact h pre c s (hsplit.trans (List.append_cons pre c s).symm)

/-! ## Section 2: Expressions -/

variable {r q : Re} {s t : State}

@[simp] theorem run_seq : run (.seq r q) k s = run r (run q k) s := rfl

theorem run_lineStart (h : s.before = none ∨ s.before = some '\n') :
    run .lineStart k s = k s := if_pos h

theorem run_textEnd (h : s.rest = []) : run .textEnd k s = k s := if_pos h

theorem run_char {c : Char} (hrest : s.rest = c :: rest) (hc : p c = true) :
    run (.char p) k s = k { s with before := some c, rest := rest } := by
  show (match s.rest with
    | [] => none
    | c :: cs => if p c then k { s with before := some c, rest := cs } else none) = _
  rw [hrest]
  exact if_pos hc

theorem run_char_none (h : Stops p s.rest) : run (.char p) k s = none := by
  show (match s.rest with
    | [] => none
    | c :: cs => if p c then k { s with before := some c, rest := cs } else none) = _
  cases hrest : s.rest with
  | nil => rfl
  | cons c cs => simp [h c (by rw [hrest]; rfl)]

/-- A captured character. -/
theorem run_group_char {i : Nat} {c : Char} (hrest : s.rest = c :: rest) (hc : p c = true) :
    run (.group i (.char p)) k s =
      k { before := some c, rest := rest, groups := Function.update s.groups i (some [c]) } := by
  show run (.char p) (fun t => k { t with
    groups := Function.update t.groups i
      (some (s.rest.take (s.rest.length - t.rest.length))) }) s = _
  rw [run_char hrest hc]
  have hcaptured : s.rest.take (s.rest.length - rest.length) = [c] := by
    rw [hrest, List.length_cons, Nat.add_sub_cancel_left]
    rfl
  simp only [hcaptured]

theorem run_group_char_none {i : Nat} (h : Stops p s.rest) :
    run (.group i (.char p)) k s = none := by
  rw [run]
  exact run_char_none h

/-- A class takes a word that the text behind it does not continue. -/
theorem run_plus (hw : w ≠ []) (hp : ∀ c ∈ w, p c = true) (hstop : Stops p rest)
    (hrest : s.rest = w ++ rest)
    (hk : k { before := w.getLast?, rest := rest, groups := s.groups } = some t) :
    run (.plus p) k s = some t := by
  show plusLoop p s.groups k s.rest = some t
  rw [hrest]
  exact plusLoop_longest hw hp hstop hk

/-- And so does a captured class. -/
theorem run_group_plus {i : Nat} (hw : w ≠ []) (hp : ∀ c ∈ w, p c = true) (hstop : Stops p rest)
    (hrest : s.rest = w ++ rest)
    (hk : k { before := w.getLast?, rest := rest,
              groups := Function.update s.groups i (some w) } = some t) :
    run (.group i (.plus p)) k s = some t := by
  refine run_plus hw hp hstop hrest ?_
  have hcaptured : s.rest.take (s.rest.length - rest.length) = w := by
    rw [hrest, List.length_append, Nat.add_sub_cancel, List.take_left]
  simp only [hcaptured]
  exact hk

theorem run_optional_some (h : run r k s = some t) : run (.optional r) k s = some t := by
  simp [run, h]

theorem run_optional_none (h : run r k s = none) : run (.optional r) k s = k s := by
  simp [run, h]

/-- `[...]*`, greedy -/
def star (p : Char → Bool) : Re := .optional (.plus p)

/-- Where the continuation succeeds behind the longest run, `*` takes that
    run, which may be empty. -/
theorem run_star (hp : ∀ c ∈ w, p c = true) (hstop : Stops p rest) (hrest : s.rest = w ++ rest)
    (hk : k { before := w.getLast?.or s.before, rest := rest, groups := s.groups } = some t) :
    run (star p) k s = some t := by
  by_cases hw : w = []
  · subst hw
    have hnone : run (.plus p) k s = none := by
      show plusLoop p s.groups k s.rest = none
      rw [hrest]
      exact plusLoop_stops hstop
    have hstate : s = { before := s.before, rest := rest, groups := s.groups } := by
      rw [← List.nil_append rest, ← hrest]
    rw [star, run_optional_none hnone, hstate]
    exact hk
  · apply run_optional_some
    apply run_plus hw hp hstop hrest
    rwa [List.getLast?_eq_some_getLast hw] at hk ⊢

/-- `*` fails when the continuation fails behind every run, the empty one
    included. -/
theorem run_star_none (h : ∀ before pre post, s.rest = pre ++ post → (∀ x ∈ pre, p x = true) →
      k { before := before, rest := post, groups := s.groups } = none) :
    run (star p) k s = none := by
  have hplus : run (.plus p) k s = none := by
    show plusLoop p s.groups k s.rest = none
    apply plusLoop_none
    intro pre c post heq hpre hc
    apply h (some c) (pre ++ [c]) post
    · rw [heq, List.append_cons]
    · exact List.forall_mem_append.mpr ⟨hpre, List.forall_mem_singleton.mpr hc⟩
  rw [star, run_optional_none hplus]
  exact h s.before [] s.rest rfl (fun x hx => absurd hx List.not_mem_nil)

end Regex
