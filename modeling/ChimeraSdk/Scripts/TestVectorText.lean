import ChimeraSdk.Scripts.GenerateTestVectors

/-! # The Text of a Test-Vector File

    What the expressions of `parse_c_arrays` find in the pieces of a file
    that `emit_ita_file` has written: the scan for initialisers passes
    over everything without an opening bracket, so that a match can only
    start at the name of an array, and between the braces only the printed
    integers are numbers. -/

open Regex
open CheckSectionOverlaps (isSpace isDigit Token not_isSpace_of_isDigit)

namespace GenerateTestVectors

variable {before : Option Char} {u w rest : List Char}

/-! ## Section 1: Numbers -/

theorem isDigit_of_mem_toDigits (n : Nat) : ∀ c ∈ Nat.toDigits 10 n, isDigit c = true :=
  Digits.forall_mem_toDigits (P := fun c => isDigit c = true) (by decide) (by decide) n

theorem nat10_toDigits (n : Nat) : nat10 (Nat.toDigits 10 n) = n :=
  Digits.foldl_toDigits (by decide) (by decide) n

theorem mem_decimal {v : Int} {c : Char} (hc : c ∈ decimal v) : isDigit c = true ∨ c = '-' := by
  unfold decimal at hc
  by_cases hv : v < 0
  · rw [if_pos hv] at hc
    rcases List.mem_cons.mp hc with rfl | hc
    · exact .inr rfl
    · exact .inl (isDigit_of_mem_toDigits _ c hc)
  · rw [if_neg hv] at hc
    exact .inl (isDigit_of_mem_toDigits _ c hc)

/-- `int` reads a printed integer back. -/
theorem int10_decimal (v : Int) : int10 (decimal v) = v := by
  unfold int10 decimal
  by_cases hv : v < 0
  · rw [if_pos hv]
    show -((nat10 (Nat.toDigits 10 v.natAbs) : Nat) : Int) = v
    rw [nat10_toDigits]
    omega
  · have hhead : (Nat.toDigits 10 v.natAbs).head? ≠ some '-' := by
      intro heq
      have hdigit := isDigit_of_mem_toDigits _ _ (List.mem_of_mem_head? heq)
      exact absurd hdigit (by decide)
    rw [if_neg hv, if_neg hhead, nat10_toDigits]
    omega

/-- A character that is no part of a number. -/
def NoNumber (c : Char) : Prop := c ≠ '-' ∧ isDigit c = false

theorem noNumber_of_all (h : w.all (fun c => c != '-' && !isDigit c) = true) :
    ∀ c ∈ w, NoNumber c := by
  intro c hc
  have hall := List.all_eq_true.mp h c hc
  rw [Bool.and_eq_true, bne_iff_ne, Bool.not_eq_true'] at hall
  exact hall

theorem matchAt_number_none {c : Char} (hc : NoNumber c) :
    matchAt NUMBER before (c :: rest) = none := by
  unfold matchAt NUMBER
  rw [run_seq, run_optional_none]
  · exact plusLoop_stops (stops_cons hc.2)
  · exact run_char_none (stops_cons (beq_false_of_ne hc.1))

/-- A printed integer is matched as a whole. -/
theorem matchAt_number (before : Option Char) (v : Int) (hstop : Stops isDigit rest) :
    ∃ last, matchAt NUMBER before (decimal v ++ rest) =
      some { before := last, rest := rest, groups := fun _ => none } := by
  refine ⟨(Nat.toDigits 10 v.natAbs).getLast?, ?_⟩
  have hne : Nat.toDigits 10 v.natAbs ≠ [] := Nat.toDigits_ne_nil
  have hdigits := isDigit_of_mem_toDigits v.natAbs
  unfold matchAt NUMBER decimal
  rw [run_seq]
  by_cases hv : v < 0
  · rw [if_pos hv]
    apply run_optional_some
    rw [List.cons_append, run_char rfl (by decide)]
    exact run_plus hne hdigits hstop rfl rfl
  · rw [if_neg hv, run_optional_none]
    · exact run_plus hne hdigits hstop rfl rfl
    · apply run_char_none
      apply stops_append hne
      intro c hc
      apply beq_false_of_ne
      rintro rfl
      exact absurd (hdigits _ hc) (by decide)

theorem numbers_pass (hu : ∀ c ∈ u, NoNumber c) :
    matchesFrom NUMBER before (u ++ rest) = matchesFrom NUMBER (u.getLast?.or before) rest := by
  apply matchesFrom_pass
  intro before v hv hsuffix
  cases v with
  | nil => exact absurd rfl hv
  | cons c v => exact matchAt_number_none (hu c (hsuffix.subset List.mem_cons_self))

theorem numbers_end (hu : ∀ c ∈ u, NoNumber c) : matchesFrom NUMBER before u = [] := by
  rw [← List.append_nil u, numbers_pass hu]
  rfl

theorem numbers_decimal (v : Int) (hstop : Stops isDigit rest) :
    (matchesFrom NUMBER before (decimal v ++ rest)).map (fun n => int10 n.matched) =
      v :: (matchesFrom NUMBER (decimal v).getLast? rest).map (fun n => int10 n.matched) := by
  have hne : decimal v ≠ [] := by
    unfold decimal
    by_cases hv : v < 0
    · rw [if_pos hv]
      exact List.cons_ne_nil _ _
    · rw [if_neg hv]
      exact Nat.toDigits_ne_nil
  obtain ⟨last, hmatch⟩ := matchAt_number before v hstop
  rw [matchesFrom_found hne hmatch, List.map_cons, int10_decimal]

theorem noNumber_of_blanks (h : Blanks w) : ∀ c ∈ w, NoNumber c := by
  intro c hc
  rw [h c hc]
  exact ⟨by decide, by decide⟩

/-- **Reading integers**: the numbers in what numpy prints are the
    integers, whatever stands around it. -/
theorem numbers_printed {values : List Int} (h : Printed values w) {tail : List Char}
    (htail : ∀ c ∈ tail, NoNumber c) :
    (matchesFrom NUMBER before (w ++ tail)).map (fun n => int10 n.matched) = values := by
  induction h generalizing before with
  | last v hl hr =>
    rename_i l r
    have hbehind : ∀ c ∈ r ++ tail, NoNumber c :=
      List.forall_mem_append.mpr ⟨noNumber_of_blanks hr, htail⟩
    have hstop : Stops isDigit (r ++ tail) := stops_of_forall (fun c hc => (hbehind c hc).2)
    rw [List.append_assoc, List.append_assoc, numbers_pass (noNumber_of_blanks hl),
      numbers_decimal v hstop, numbers_end hbehind]
    rfl
  | more v hl hr _ ih =>
    rename_i l r values w _
    have hbehind : ∀ c ∈ r ++ [','], NoNumber c :=
      List.forall_mem_append.mpr ⟨noNumber_of_blanks hr,
        List.forall_mem_singleton.mpr ⟨by decide, by decide⟩⟩
    -- the comma ends the number
    have hstop : Stops isDigit (r ++ [','] ++ (w ++ tail)) :=
      stops_append (List.append_ne_nil_of_right_ne_nil _ (List.cons_ne_nil _ _))
        (fun c hc => (hbehind c hc).2)
    have htext : l ++ (decimal v ++ (r ++ ',' :: w)) ++ tail =
        l ++ (decimal v ++ (r ++ [','] ++ (w ++ tail))) := by
      simp only [List.append_assoc, List.cons_append, List.nil_append]
    rw [htext, numbers_pass (noNumber_of_blanks hl), numbers_decimal v hstop,
      numbers_pass hbehind, ih]

/-! ## Section 2: Comments -/

theorem matchAt_comment_none {c : Char} (hc : c ≠ '/') :
    matchAt COMMENT before (c :: rest) = none := by
  unfold matchAt COMMENT
  rw [run_seq]
  exact run_char_none (stops_cons (beq_false_of_ne hc))

theorem matchAt_comment (before : Option Char) (rest : List Char) {line : List Char}
    (hline : '\n' ∉ line) :
    ∃ last, matchAt COMMENT before ("//".toList ++ line ++ '\n' :: rest) =
      some { before := last, rest := '\n' :: rest, groups := fun _ => none } := by
  refine ⟨line.getLast?.or (some '/'), ?_⟩
  have hchars : ∀ c ∈ line, (c != '\n') = true := by
    intro c hc
    apply bne_iff_ne.mpr
    rintro rfl
    exact hline hc
  have hslashes : "//".toList ++ line ++ '\n' :: rest = '/' :: '/' :: (line ++ '\n' :: rest) := rfl
  unfold matchAt COMMENT
  rw [hslashes, run_seq, run_char rfl (by decide), run_seq, run_char rfl (by decide)]
  exact run_star hchars (stops_cons (by decide)) rfl rfl

/-- What remains of a text without its comments, wherever the text
    stands. -/
def Strips (chars kept : List Char) : Prop :=
  ∀ before, subFrom COMMENT [] before chars = kept

theorem Strips.pass {kept : List Char} (hu : '/' ∉ u) (h : Strips rest kept) :
    Strips (u ++ rest) (u ++ kept) := by
  intro before
  rw [subFrom_pass, h]
  intro before v hv hsuffix
  cases v with
  | nil => exact absurd rfl hv
  | cons c v =>
    apply matchAt_comment_none
    rintro rfl
    exact hu (hsuffix.subset List.mem_cons_self)

theorem strips_nil : Strips [] [] := fun _ => rfl

theorem Strips.comment {kept line : List Char} (hline : '\n' ∉ line) (h : Strips rest kept) :
    Strips (comment line ++ rest) ('\n' :: kept) := by
  intro before
  have htext : GenerateTestVectors.comment line ++ rest = "//".toList ++ line ++ '\n' :: rest := by
    simp [GenerateTestVectors.comment]
  obtain ⟨last, hmatch⟩ := matchAt_comment before rest hline
  have hne : "//".toList ++ line ≠ [] := List.cons_ne_nil _ _
  rw [htext, subFrom_found hne hmatch, List.nil_append]
  exact Strips.pass (u := ['\n']) (by decide) h _

/-- Of a block of comments only the line feeds remain. -/
theorem Strips.comments {kept : List Char} {lines : List (List Char)}
    (hlines : ∀ line ∈ lines, '\n' ∉ line) (h : Strips rest kept) :
    Strips (lines.flatMap GenerateTestVectors.comment ++ rest)
      (List.replicate lines.length '\n' ++ kept) := by
  induction lines with
  | nil => exact h
  | cons line lines ih =>
    obtain ⟨hline, hlines⟩ := List.forall_mem_cons.mp hlines
    rw [List.flatMap_cons, List.append_assoc]
    exact (ih hlines).comment hline

/-! ## Section 3: Initialisers -/

theorem isWord_iff {c : Char} : isWord c = true ↔ (48 ≤ c.toNat ∧ c.toNat ≤ 57) ∨
    (65 ≤ c.toNat ∧ c.toNat ≤ 90) ∨ c.toNat = 95 ∨ (97 ≤ c.toNat ∧ c.toNat ≤ 122) := by
  simp only [isWord, isDigit, Bool.or_eq_true, Bool.and_eq_true, decide_eq_true_eq, beq_iff_eq,
    or_assoc]

theorem not_isSpace_of_isWord {c : Char} (h : isWord c = true) : isSpace c = false := by
  rw [isWord_iff] at h
  simp only [isSpace, Bool.or_eq_false_iff, Bool.and_eq_false_iff, decide_eq_false_iff_not,
    beq_eq_false_iff_ne]
  omega

theorem not_mem_name {d : Declaration} {c : Char} (hc : isWord c = false) : c ∉ d.name.chars := by
  intro hmem
  rw [d.name.mem c hmem] at hc
  cases hc

/-- The characters that stand between the brackets and in them. -/
theorem mem_dims {rank size : Nat} {c : Char} (hc : c ∈ dims rank size) :
    isDigit c = true ∨ c = '[' ∨ c = ']' := by
  unfold dims at hc
  by_cases hrank : rank = 1
  · rw [if_pos hrank, List.mem_cons, List.mem_append, List.mem_singleton] at hc
    rcases hc with rfl | hc | rfl
    · exact .inr (.inl rfl)
    · exact .inl (isDigit_of_mem_toDigits size c hc)
    · exact .inr (.inr rfl)
  · rw [if_neg hrank, List.mem_append, List.mem_append, List.mem_singleton] at hc
    rcases hc with hc | hc | rfl
    · have htext : "[1][".toList = ['[', '1', ']', '['] := rfl
      rw [htext] at hc
      simp only [List.mem_cons, List.not_mem_nil, or_false] at hc
      rcases hc with rfl | rfl | rfl | rfl
      · exact .inr (.inl rfl)
      · exact .inl rfl
      · exact .inr (.inr rfl)
      · exact .inr (.inl rfl)
    · exact .inl (isDigit_of_mem_toDigits size c hc)
    · exact .inr (.inr rfl)

theorem dims_eq_cons (rank size : Nat) : ∃ w, dims rank size = '[' :: w := by
  unfold dims
  by_cases hrank : rank = 1
  · exact ⟨_, if_pos hrank⟩
  · exact ⟨_, if_neg hrank⟩

/-- What the expression covers of a declaration. -/
def opening (d : Declaration) (size : Nat) : List Char :=
  d.name.chars ++ (dims d.rank size ++ " = \x7b".toList)

def captured (d : Declaration) : Groups := Function.update (fun _ => none) 1 (some d.name.chars)

/-- The expression matches at a name. -/
theorem matchAt_opening (before : Option Char) (d : Declaration) (size : Nat) (rest : List Char) :
    ∃ last, matchAt ARRAY before (opening d size ++ rest) =
      some { before := last, rest := rest, groups := captured d } := by
  refine ⟨some '\x7b', ?_⟩
  obtain ⟨w, hdims⟩ := dims_eq_cons d.rank size
  have htext : opening d size ++ rest =
      d.name.chars ++ ('[' :: ((w ++ [' ']) ++ ('=' :: ' ' :: '\x7b' :: rest))) := by
    simp [opening, hdims]
  have hbrackets : ∀ c ∈ w ++ [' '], (c != '=') = true := by
    intro c hc
    apply bne_iff_ne.mpr
    rintro rfl
    rcases List.mem_append.mp hc with hc | hc
    · have hmem : '=' ∈ dims d.rank size := by
        rw [hdims]
        exact List.mem_cons_of_mem _ hc
      exact absurd (mem_dims hmem) (by decide)
    · exact absurd hc (by decide)
  -- name, no space, bracket, everything up to `=`, a space, brace
  unfold matchAt ARRAY
  rw [htext, run_seq]
  apply CheckSectionOverlaps.run_group_token d.name (stops_cons (by decide)) rfl
  rw [run_seq]
  apply run_star (w := []) (by simp) (stops_cons (by decide)) rfl
  rw [run_seq, run_char rfl (by decide), run_seq]
  apply run_star hbrackets (stops_cons (by decide)) rfl
  rw [run_seq, run_char rfl (by decide), run_seq]
  apply run_star (w := [' ']) (List.forall_mem_singleton.mpr rfl) (stops_cons (by decide)) rfl
  rw [run_char rfl (by decide)]
  rfl

/-- No match starts in a text without an opening bracket that ends behind a
    word. -/
theorem matchAt_array_none {c : Char} (hw : '[' ∉ w) (hc : isWord c = false) (hcb : c ≠ '[')
    (hspace : Stops isSpace rest) (hbracket : Stops (· == '[') rest) :
    matchAt ARRAY before (w ++ c :: rest) = none := by
  have hstop : Stops isWord (c :: rest) := stops_cons hc
  apply plusLoop_none_of_stops hstop
  intro pre a v hsplit
  -- the white space behind the word ends before the rest, where no bracket stands
  apply run_star_none
  intro before spaces post' heq' hspaces
  rw [run_seq]
  apply run_char_none
  obtain ⟨v', hsplit', rfl⟩ := hspace.split ((List.append_cons v c rest).symm.trans heq') hspaces
  by_cases hv' : v' = []
  · subst hv'
    exact hbracket
  · apply stops_append hv'
    intro x hx
    apply beq_false_of_ne
    rintro rfl
    have hmem : '[' ∈ v ++ [c] := by
      rw [hsplit']
      exact List.mem_append_right _ hx
    rcases List.mem_append.mp hmem with hmem | hmem
    · apply hw
      rw [hsplit]
      exact List.mem_append_right _ (List.mem_cons_of_mem _ hmem)
    · exact hcb (List.mem_singleton.mp hmem).symm

/-- The scan passes over such a text. -/
theorem initialisers_pass {c : Char} (hw : '[' ∉ w) (hc : isWord c = false) (hcb : c ≠ '[')
    (hspace : Stops isSpace rest) (hbracket : Stops (· == '[') rest) :
    matchesFrom ARRAY before (w ++ [c] ++ rest) = matchesFrom ARRAY (some c) rest := by
  rw [matchesFrom_pass, List.getLast?_concat]
  · rfl
  · intro before v hv hsuffix
    rcases List.suffix_concat_iff.mp hsuffix with rfl | ⟨v', rfl, hsuffix'⟩
    · exact absurd rfl hv
    · rw [← List.append_cons]
      exact matchAt_array_none (fun hmem => hw (hsuffix'.subset hmem)) hc hcb hspace hbracket

/-! ## Section 4: Bodies -/

theorem scanBraces_zero : scanBraces 0 rest = [] := by
  cases rest with
  | nil => rfl
  | cons c rest => rfl

/-- The count does not change where no brace stands. -/
theorem scanBraces_pass {depth : Nat} (hopen : '\x7b' ∉ u) (hclose : '\x7d' ∉ u) :
    scanBraces (depth + 1) (u ++ rest) = u ++ scanBraces (depth + 1) rest := by
  induction u with
  | nil => rfl
  | cons c u ih =>
    obtain ⟨hne, hopen⟩ := List.ne_and_not_mem_of_not_mem_cons hopen
    obtain ⟨hne', hclose⟩ := List.ne_and_not_mem_of_not_mem_cons hclose
    rw [List.cons_append, scanBraces, if_neg (Nat.succ_ne_zero depth), if_neg (Ne.symm hne),
      if_neg (Ne.symm hne'), List.cons_append]
    exact congrArg (c :: ·) (ih hopen hclose)

/-- The characters that numpy prints for integers. -/
theorem mem_printed {values : List Int} (h : Printed values w) :
    ∀ c ∈ w, isDigit c = true ∨ c = '-' ∨ c = ',' ∨ c = ' ' := by
  have hblanks : ∀ {w : List Char}, Blanks w →
      ∀ c ∈ w, isDigit c = true ∨ c = '-' ∨ c = ',' ∨ c = ' ' :=
    fun hw c hc => .inr (.inr (.inr (hw c hc)))
  have hdecimal : ∀ v : Int, ∀ c ∈ decimal v, isDigit c = true ∨ c = '-' ∨ c = ',' ∨ c = ' ' :=
    fun v c hc => (mem_decimal hc).imp_right .inl
  induction h with
  | last v hl hr =>
    exact List.forall_mem_append.mpr
      ⟨hblanks hl, List.forall_mem_append.mpr ⟨hdecimal v, hblanks hr⟩⟩
  | more v hl hr _ ih =>
    exact List.forall_mem_append.mpr ⟨hblanks hl, List.forall_mem_append.mpr ⟨hdecimal v,
      List.forall_mem_append.mpr ⟨hblanks hr,
        List.forall_mem_cons.mpr ⟨.inr (.inr (.inl rfl)), ih⟩⟩⟩⟩

theorem not_mem_printed {values : List Int} (h : Printed values w) {c : Char}
    (hc : ¬ (isDigit c = true ∨ c = '-' ∨ c = ',' ∨ c = ' ')) : c ∉ w :=
  fun hmem => hc (mem_printed h c hmem)

/-- The text between the outer braces. -/
def body (d : Declaration) (inner : List Char) : List Char :=
  if d.rank = 1 then "\n".toList ++ (inner ++ "\n".toList)
  else "\n\x7b\n".toList ++ (inner ++ "\n\x7d\n".toList)

section bodies
variable {d : Declaration} {values : List Int} {inner : List Char}

/-- The brace that ends the scan is the one behind the body. -/
theorem scanBraces_body (h : Printed values inner) :
    scanBraces 1 (body d inner ++ '\x7d' :: rest) = body d inner ++ ['\x7d'] := by
  have hinner : ∀ {depth : Nat} {rest : List Char},
      scanBraces (depth + 1) (inner ++ rest) = inner ++ scanBraces (depth + 1) rest :=
    scanBraces_pass (not_mem_printed h (by decide)) (not_mem_printed h (by decide))
  unfold body
  by_cases hrank : d.rank = 1
  · rw [if_pos hrank, List.append_assoc, List.append_assoc]
    show '\n' :: scanBraces 1 (inner ++ ('\n' :: '\x7d' :: rest)) = _
    rw [hinner]
    show '\n' :: (inner ++ '\n' :: '\x7d' :: scanBraces 0 rest) = _
    rw [scanBraces_zero]
    simp
  · rw [if_neg hrank, List.append_assoc, List.append_assoc]
    show '\n' :: '\x7b' :: '\n' :: scanBraces 2
      (inner ++ ('\n' :: '\x7d' :: '\n' :: '\x7d' :: rest)) = _
    rw [hinner]
    show '\n' :: '\x7b' :: '\n' :: (inner ++ '\n' :: '\x7d' :: '\n' :: '\x7d' ::
      scanBraces 0 rest) = _
    rw [scanBraces_zero]
    simp

theorem numbers_body (h : Printed values inner) : numbers (body d inner) = values := by
  have hlead : ∀ c ∈ "\n\x7b\n".toList, NoNumber c := noNumber_of_all rfl
  have htail : ∀ c ∈ "\n\x7d\n".toList, NoNumber c := noNumber_of_all rfl
  have hnewline : ∀ c ∈ "\n".toList, NoNumber c := noNumber_of_all rfl
  unfold numbers allMatches body
  by_cases hrank : d.rank = 1
  · rw [if_pos hrank, numbers_pass hnewline]
    exact numbers_printed h hnewline
  · rw [if_neg hrank, numbers_pass hlead]
    exact numbers_printed h htail

theorem not_mem_body (h : Printed values inner) {c : Char}
    (hc : ¬ (isDigit c = true ∨ c = '-' ∨ c = ',' ∨ c = ' '))
    (hb : c ∉ "\n\x7b\n".toList) (hb' : c ∉ "\n\x7d\n".toList) : c ∉ body d inner := by
  have hnewline : c ∉ "\n".toList :=
    fun hmem => hb (List.mem_cons_of_mem _ (List.mem_cons_of_mem _ hmem))
  have hinner : c ∉ inner := not_mem_printed h hc
  unfold body
  by_cases hrank : d.rank = 1
  · rw [if_pos hrank, List.mem_append, List.mem_append]
    rintro (hmem | hmem | hmem)
    · exact hnewline hmem
    · exact hinner hmem
    · exact hnewline hmem
  · rw [if_neg hrank, List.mem_append, List.mem_append]
    rintro (hmem | hmem | hmem)
    · exact hb hmem
    · exact hinner hmem
    · exact hb' hmem

/-- The text in front of a name. -/
def lead (d : Declaration) : List Char := "const ".toList ++ (d.ctype.chars ++ [' '])

/-- A declaration is cut where the expression cuts it. -/
theorem declaration_eq (d : Declaration) (size : Nat) (inner : List Char) :
    declaration d size inner =
      lead d ++ (opening d size ++ (body d inner ++ "\x7d;\n".toList)) := by
  unfold declaration body lead opening
  by_cases hrank : d.rank = 1
  · have hopen : " = \x7b\n".toList = " = \x7b".toList ++ "\n".toList := rfl
    have hclose : "\n\x7d;\n".toList = "\n".toList ++ "\x7d;\n".toList := rfl
    rw [if_pos hrank, if_pos hrank, hopen, hclose]
    simp only [List.append_assoc, List.cons_append, List.nil_append]
  · have hopen : " = \x7b\n\x7b\n".toList = " = \x7b".toList ++ "\n\x7b\n".toList := rfl
    have hclose : "\n\x7d\n\x7d;\n".toList = "\n\x7d\n".toList ++ "\x7d;\n".toList := rfl
    rw [if_neg hrank, if_neg hrank, hopen, hclose]
    simp only [List.append_assoc, List.cons_append, List.nil_append]

end bodies

end GenerateTestVectors
