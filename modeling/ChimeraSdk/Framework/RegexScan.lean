import ChimeraSdk.Framework.Regex

/-! # Scanning a Text with a Regular Expression

    One scan from left to right cuts a text into the matches of an
    expression and the characters between them.  Collecting the matches,
    collecting their groups and replacing the matches are three readings
    of that scan, so that what is said about the scan holds for all of
    them. -/

namespace Regex

/-- A match: the text it covers, the text behind it and its groups. -/
structure Match where
  matched : List Char
  rest : List Char
  groups : Groups

/-- The match that has led from a text to a state. -/
def State.toMatch (t : State) (chars : List Char) : Match where
  matched := chars.take (chars.length - t.rest.length)
  rest := t.rest
  groups := t.groups

inductive Piece where
  /-- A character that no match covers. -/
  | kept (c : Char)
  | found (m : Match)

/-- The pieces of a text.  `skip` counts the characters that the last match
    has still to cover. -/
def pieces (r : Re) : Option Char → Nat → List Char → List Piece
  | before, skip, [] =>
      if skip = 0 then ((matchAt r before []).map (fun t => .found (t.toMatch []))).toList else []
  | before, skip, c :: cs =>
      if skip = 0 then
        match matchAt r before (c :: cs) with
        | some t =>
            -- a match of no character leaves the character where it is
            if t.rest.length = (c :: cs).length then
              .found (t.toMatch (c :: cs)) :: .kept c :: pieces r (some c) 0 cs
            else .found (t.toMatch (c :: cs)) ::
              pieces r (some c) ((c :: cs).length - t.rest.length - 1) cs
        | none => .kept c :: pieces r (some c) 0 cs
      else pieces r (some c) (skip - 1) cs

def Piece.asMatch : Piece → Option Match
  | .kept _ => none
  | .found m => some m

/-- The matches in a text, from a position with the given character before
    it. -/
def matchesFrom (r : Re) (before : Option Char) (chars : List Char) : List Match :=
  (pieces r before 0 chars).filterMap Piece.asMatch

/-- The matches of an expression in a text. -/
def allMatches (r : Re) (chars : List Char) : List Match := matchesFrom r none chars

def Piece.replace (repl : List Char) : Piece → List Char
  | .kept c => [c]
  | .found _ => repl

def subFrom (r : Re) (repl : List Char) (before : Option Char) (chars : List Char) : List Char :=
  (pieces r before 0 chars).flatMap (Piece.replace repl)

/-- The text with every match replaced. -/
def sub (r : Re) (repl chars : List Char) : List Char := subFrom r repl none chars

/-! ## Section 1: The scan -/

variable {r q : Re} {before last : Option Char} {groups : Groups} {u w rest : List Char}

/-- `finditer` reads the groups of the matches. -/
theorem finditer_eq_pieces (before : Option Char) (skip : Nat) (chars : List Char) :
    finditer r before skip chars =
      ((pieces r before skip chars).filterMap Piece.asMatch).map Match.groups := by
  induction chars generalizing before skip with
  | nil =>
    by_cases hskip : skip = 0
    · simp only [finditer, pieces, hskip, if_true]
      cases matchAt r before [] with
      | none => rfl
      | some t => rfl
    · simp [finditer, pieces, hskip]
  | cons c cs ih =>
    by_cases hskip : skip = 0
    · simp only [finditer, pieces, hskip, if_true]
      cases matchAt r before (c :: cs) with
      | none => exact ih (some c) 0
      | some t =>
        -- a match of no character covers none, and the search moves on by one
        by_cases hempty : t.rest.length = (c :: cs).length
        · simp only [hempty, if_true, Nat.sub_self, Nat.zero_sub, ih]
          rfl
        · simp only [hempty, if_false, ih]
          rfl
    · simp only [finditer, pieces, hskip, if_false]
      exact ih (some c) (skip - 1)

/-- The character before what follows a word. -/
theorem getLast?_cons_or (before : Option Char) (c : Char) (w : List Char) :
    (c :: w).getLast?.or before = w.getLast?.or (some c) := by
  rw [List.getLast?_cons]
  cases w.getLast? with
  | none => rfl
  | some d => rfl

theorem pieces_skip (r : Re) (before : Option Char) (w rest : List Char) :
    pieces r before w.length (w ++ rest) = pieces r (w.getLast?.or before) 0 rest := by
  induction w generalizing before with
  | nil => rfl
  | cons c w ih =>
    rw [getLast?_cons_or, ← ih (some c)]
    rfl

/-- A text in which no match starts is kept. -/
theorem pieces_pass (h : ∀ before v, v ≠ [] → v <:+ u → matchAt r before (v ++ rest) = none) :
    pieces r before 0 (u ++ rest) =
      u.map Piece.kept ++ pieces r (u.getLast?.or before) 0 rest := by
  induction u generalizing before with
  | nil => rfl
  | cons c u ih =>
    have hnone : matchAt r before (c :: (u ++ rest)) = none :=
      h before (c :: u) (List.cons_ne_nil _ _) List.suffix_rfl
    rw [List.cons_append, getLast?_cons_or, List.map_cons, List.cons_append]
    simp only [pieces, if_true, hnone]
    rw [ih (fun before v hv hsuffix => h before v hv (hsuffix.trans (List.suffix_cons c u)))]

/-- A match is found, and the scan goes on behind it. -/
theorem pieces_found (hw : w ≠ []) (h : matchAt r before (w ++ rest) =
      some { before := last, rest := rest, groups := groups }) :
    pieces r before 0 (w ++ rest) =
      .found { matched := w, rest := rest, groups := groups } ::
        pieces r w.getLast? 0 rest := by
  cases w with
  | nil => exact absurd rfl hw
  | cons c w =>
    have hcovers : rest.length ≠ (c :: (w ++ rest)).length := by
      simp only [List.length_cons, List.length_append]
      omega
    have hskip : (c :: (w ++ rest)).length - rest.length - 1 = w.length := by
      simp only [List.length_cons, List.length_append]
      omega
    have hmatched : (c :: (w ++ rest)).take ((c :: (w ++ rest)).length - rest.length) = c :: w := by
      rw [← List.cons_append, List.length_append, Nat.add_sub_cancel, List.take_left]
    have hlast : (c :: w).getLast? = w.getLast?.or (some c) := by
      rw [← getLast?_cons_or none, Option.or_none]
    rw [List.cons_append] at h ⊢
    simp only [pieces, if_true, h, hcovers, if_false, hskip, State.toMatch, hmatched]
    rw [pieces_skip, hlast]

/-! ### Its readings -/

variable {repl : List Char}

theorem matchesFrom_pass (h : ∀ before v, v ≠ [] → v <:+ u → matchAt r before (v ++ rest) = none) :
    matchesFrom r before (u ++ rest) = matchesFrom r (u.getLast?.or before) rest := by
  have hkept : (u.map Piece.kept).filterMap Piece.asMatch = [] := by
    simp [List.filterMap_eq_nil_iff, Piece.asMatch]
  unfold matchesFrom
  rw [pieces_pass h, List.filterMap_append, hkept, List.nil_append]

theorem matchesFrom_found (hw : w ≠ []) (h : matchAt r before (w ++ rest) =
      some { before := last, rest := rest, groups := groups }) :
    matchesFrom r before (w ++ rest) =
      { matched := w, rest := rest, groups := groups } :: matchesFrom r w.getLast? rest := by
  unfold matchesFrom
  rw [pieces_found hw h]
  rfl

theorem subFrom_pass (h : ∀ before v, v ≠ [] → v <:+ u → matchAt r before (v ++ rest) = none) :
    subFrom r repl before (u ++ rest) = u ++ subFrom r repl (u.getLast?.or before) rest := by
  have hkept : (u.map Piece.kept).flatMap (Piece.replace repl) = u := by
    rw [List.flatMap_map]
    exact List.flatMap_singleton' u
  unfold subFrom
  rw [pieces_pass h, List.flatMap_append, hkept]

theorem subFrom_found (hw : w ≠ []) (h : matchAt r before (w ++ rest) =
      some { before := last, rest := rest, groups := groups }) :
    subFrom r repl before (w ++ rest) = repl ++ subFrom r repl w.getLast? rest := by
  unfold subFrom
  rw [pieces_found hw h]
  rfl

/-- The matches behind a found one, for `finditer`. -/
theorem finditer_found (hw : w ≠ []) (h : matchAt r before (w ++ rest) =
      some { before := last, rest := rest, groups := groups }) :
    finditer r before 0 (w ++ rest) = groups :: finditer r w.getLast? 0 rest := by
  rw [finditer_eq_pieces, finditer_eq_pieces, pieces_found hw h]
  rfl

/-! ## Section 2: Texts of lines -/

/-- An anchored expression does not match in the middle of a line. -/
theorem matchAt_inside {c : Char} (hc : c ≠ '\n') :
    matchAt (.seq .lineStart q) (some c) rest = none := by
  simp [matchAt, run, hc]

/-- A match that covers a line up to its line feed is found, and the search
    goes on behind the line. -/
theorem finditer_line {c : Char} (hc : c ≠ '\n')
    (hfound : matchAt (.seq .lineStart q) before (w ++ [c] ++ '\n' :: rest) =
      some { before := last, rest := '\n' :: rest, groups := groups }) :
    finditer (.seq .lineStart q) before 0 (w ++ [c] ++ '\n' :: rest) =
      groups :: finditer (.seq .lineStart q) (some '\n') 0 rest := by
  -- the match ends at the line feed, behind which the anchor holds again
  have hinside : finditer (.seq .lineStart q) (some c) 0 ('\n' :: rest) =
      finditer (.seq .lineStart q) (some '\n') 0 rest := by
    simp only [finditer, if_true, matchAt_inside hc]
  rw [finditer_found (List.append_ne_nil_of_right_ne_nil _ (List.cons_ne_nil c [])) hfound,
    List.getLast?_concat, hinside]

/-- A line at which no match starts is passed over. -/
theorem finditer_no_line (hw : ∀ c ∈ w, c ≠ '\n')
    (hnone : matchAt (.seq .lineStart q) before (w ++ '\n' :: rest) = none) :
    finditer (.seq .lineStart q) before 0 (w ++ '\n' :: rest) =
      finditer (.seq .lineStart q) (some '\n') 0 rest := by
  induction w generalizing before with
  | nil =>
    rw [List.nil_append] at hnone ⊢
    simp only [finditer, if_true, hnone]
  | cons c w ih =>
    obtain ⟨hc, hw⟩ := List.forall_mem_cons.mp hw
    rw [List.cons_append] at hnone ⊢
    simp only [finditer, if_true, hnone]
    exact ih hw (matchAt_inside hc)

section lines
variable {α : Type}

/-- A text of lines, each with its line feed. -/
def text (line : α → List Char) (as : List α) : List Char := as.flatMap (fun a => line a ++ ['\n'])

theorem text_cons {line : α → List Char} {a : α} {as : List α} :
    text line (a :: as) = line a ++ '\n' :: text line as := by
  simp [text]

/-- When an anchored expression matches every line of a text as a whole,
    `finditer` finds the lines. -/
theorem finditer_text {line : α → List Char} {captured : α → Groups}
    (hend : ∀ before, matchAt (.seq .lineStart q) before [] = none)
    (hlast : ∀ a, ∃ w c, line a = w ++ [c] ∧ c ≠ '\n')
    (hmatch : ∀ a as before, before = none ∨ before = some '\n' →
      ∃ last, matchAt (.seq .lineStart q) before (line a ++ '\n' :: text line as) =
        some { before := last, rest := '\n' :: text line as, groups := captured a })
    (as : List α) :
    finditer (.seq .lineStart q) none 0 (text line as) = as.map captured := by
  suffices h : ∀ before, before = none ∨ before = some '\n' →
      finditer (.seq .lineStart q) before 0 (text line as) = as.map captured from h none (.inl rfl)
  induction as with
  | nil =>
    intro before _
    simp [text, finditer, hend]
  | cons a as ih =>
    intro before hbefore
    obtain ⟨w, c, hline, hc⟩ := hlast a
    obtain ⟨last, hfound⟩ := hmatch a as before hbefore
    rw [text_cons, hline] at *
    rw [finditer_line hc hfound, ih _ (.inr rfl), List.map_cons]

end lines

end Regex
