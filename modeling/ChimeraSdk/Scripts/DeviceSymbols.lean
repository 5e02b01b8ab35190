import ChimeraSdk.Scripts.CheckSectionOverlaps

/-! # The Symbols That Devices Export

    `chimera_generate_symbols` of `ChimeraBuildHelpers.cmake` reads the
    output of `nm` for a device and exports every public symbol under the
    name `DEVICE_NAME_symbol`, so that several devices can be linked into
    one host without name collisions.

    The separator is a character of identifiers.  When one device name
    continues another one behind it, two devices can export the same
    name; the theorem of this module says when they do. -/

open Regex
open CheckSectionOverlaps (isHex isBlank Token run_token run_group_token oneBlank
  not_isHex_of_isBlank)

namespace ChimeraBuildHelpers

/-! ## Section 1: The script -/

/-- `[TtDdBbRr]` -/
def isExportedType (c : Char) : Bool := "TtDdBbRr".toList.contains c

/-- `^([0-9a-fA-F]+)[ \t]+([TtDdBbRr])[ \t]+(.+)$` -/
def NM_LINE : Re :=
  .seq .lineStart <| .seq (.group 1 (.plus isHex)) <| .seq (.plus isBlank) <|
  .seq (.group 2 (.char isExportedType)) <| .seq (.plus isBlank) <|
  .seq (.group 3 (.plus fun _ => true)) .textEnd

/-- White space for `string(STRIP ...)`. -/
def isStripped (c : Char) : Bool := (9 ≤ c.toNat && c.toNat ≤ 13) || c.toNat == 32

/-- `string(STRIP ...)` -/
def strip (w : List Char) : List Char :=
  ((w.dropWhile isStripped).reverse.dropWhile isStripped).reverse

/-- An exported symbol: `ADDR` and `PSYM`. -/
structure Exported where
  addr : List Char
  psym : List Char
  deriving DecidableEq, Repr

/-- How a character changes the depth of square brackets. -/
def bracket (c : Char) : Int := if c = '[' then 1 else if c = ']' then -1 else 0

/-- The elements of a CMake list.  A semicolon ends an element unless it
    stands in square brackets or behind a backslash, which is dropped. -/
def listElements (escaped : Bool) (nesting : Int) : List Char → List (List Char)
  | [] => [[]]
  | c :: cs =>
      if escaped then (listElements false nesting cs).modifyHead (c :: ·)
      else if c = '\\' ∧ cs.head? = some ';' then listElements true nesting cs
      else if c = ';' ∧ nesting = 0 then [] :: listElements false nesting cs
      else (listElements false (nesting + bracket c) cs).modifyHead (c :: ·)

/-- `string(REPLACE "\n" ";" ...)` -/
def replaceNewlines (w : List Char) : List Char := w.map fun c => if c = '\n' then ';' else c

/-- `NM_LINES`, as `foreach(... IN LISTS ...)` takes it apart. -/
def nmLines (NM_OUTPUT : List Char) : List (List Char) :=
  listElements false 0 (replaceNewlines NM_OUTPUT)

/-- The words that are false, in any case. -/
def offWords : List (List Char) := ["0", "N", "NO", "OFF", "FALSE", "IGNORE"].map String.toList

/-- The values that `if(NOT ...)` takes for false. -/
def isOff (w : List Char) : Bool :=
  w.isEmpty || offWords.contains (w.map Char.toUpper) || w == "NOTFOUND".toList ||
    "-NOTFOUND".toList.isSuffixOf w

/-- What the loop does with a line. -/
def exportLine (DEVICE_NAME line : List Char) : Option Exported := do
  if isOff line then none
  let m ← matchAt NM_LINE none line
  let addr ← m.groups 1
  let sym ← (m.groups 3).map strip
  -- linker-internal symbols
  if "__".toList.isPrefixOf sym then none
  else some { addr := addr, psym := DEVICE_NAME ++ '_' :: sym }

/-- The symbols exported from the output of `nm`, in its order. -/
def exportedSymbols (DEVICE_NAME NM_OUTPUT : List Char) : List Exported :=
  (nmLines NM_OUTPUT).filterMap (exportLine DEVICE_NAME)

/-- What the loop appends to the assembly file. -/
def Exported.asm (s : Exported) : List Char :=
  ".global ".toList ++ s.psym ++ "\n.set    ".toList ++ s.psym ++ ", 0x".toList ++ s.addr ++ ['\n']

/-- What the loop appends to the header file. -/
def Exported.decl (s : Exported) : List Char :=
  "extern char ".toList ++ s.psym ++ "[]; /* 0x".toList ++ s.addr ++ " */\n".toList

/-- What stands between the fixed head and tail of the two files. -/
structure SymbolFiles where
  ASM_SYMS : List Char
  H_DECLS : List Char

def chimera_generate_symbols (DEVICE_NAME NM_OUTPUT : List Char) : SymbolFiles where
  ASM_SYMS := (exportedSymbols DEVICE_NAME NM_OUTPUT).flatMap Exported.asm
  H_DECLS := (exportedSymbols DEVICE_NAME NM_OUTPUT).flatMap Exported.decl

/-! ## Section 2: Devices -/

/-- A character of a C identifier. -/
def isIdentifier (c : Char) : Bool :=
  (48 ≤ c.toNat && c.toNat ≤ 57) || (65 ≤ c.toNat && c.toNat ≤ 90) || c.toNat == 95 ||
    (97 ≤ c.toNat && c.toNat ≤ 122)

/-- A C identifier. -/
structure Identifier extends Token isIdentifier where
  head : ∀ c, chars.head? = some c → ¬ (48 ≤ c.toNat ∧ c.toNat ≤ 57)

/-- The characters that a CMake list gives a meaning to, with the line
    feeds that are made into separators. -/
def isListChar (c : Char) : Bool := ['\n', ';', '[', ']', '\\'].contains c

/-- The name of a symbol: any text that `nm` can print on a line of its own
    and a CMake list takes as it stands, such as `__global_pointer$`. -/
structure SymbolName extends Token (fun c => !isListChar c) where
  stripped : strip chars = chars
  notOff : "-NOTFOUND".toList.isSuffixOf chars = false

/-- The letters, `?` and `-` that `nm` prints as types. -/
def isNmType (c : Char) : Bool := c.isAlpha || c == '?' || c == '-'

/-- A line of `nm`: `<addr> <type> <name>`. -/
structure NmLine where
  addr : Token isHex
  gap₁ : Token isBlank
  type : Char
  type_letter : isNmType type = true
  gap₂ : Token isBlank
  name : SymbolName

def NmLine.chars (l : NmLine) : List Char :=
  l.addr.chars ++ (l.gap₁.chars ++ (l.type :: (l.gap₂.chars ++ l.name.chars)))

/-- A symbol that is exported: of an exported type, and not internal to the
    linker. -/
def NmLine.IsPublic (l : NmLine) : Prop :=
  isExportedType l.type = true ∧ "__".toList.isPrefixOf l.name.chars = false

instance (l : NmLine) : Decidable l.IsPublic := inferInstanceAs (Decidable (_ ∧ _))

/-- A device of the build, with what `nm` prints for it. -/
structure Device where
  name : Identifier
  nm : List NmLine

/-- The symbol under which the host sees a line of `nm`. -/
def NmLine.exported (DEVICE_NAME : List Char) (l : NmLine) : Exported where
  addr := l.addr.chars
  psym := DEVICE_NAME ++ '_' :: l.name.chars

/-- The names that a device exports. -/
def Device.exports (d : Device) : List (List Char) :=
  (exportedSymbols d.name.chars (text NmLine.chars d.nm)).map Exported.psym

/-! ## Section 3: Lines of nm -/

section classes
variable {c : Char}

theorem not_isBlank_of_isExportedType (h : isExportedType c = true) : isBlank c = false := by
  have hletters : "TtDdBbRr".toList.all (fun a => !isBlank a) = true := rfl
  have hc := List.all_eq_true.mp hletters c (List.contains_iff_mem.mp h)
  rwa [Bool.not_eq_true'] at hc

theorem not_isExportedType_of_isBlank (h : isBlank c = true) : isExportedType c = false := by
  cases htype : isExportedType c with
  | false => rfl
  | true => rw [not_isBlank_of_isExportedType htype] at h; cases h

theorem eq_of_isBlank (h : isBlank c = true) : c = '\t' ∨ c = ' ' := by
  simp only [isBlank, Bool.or_eq_true, beq_iff_eq] at h
  exact h.imp (fun htab => Char.toNat_inj.mp htab) (fun hspace => Char.toNat_inj.mp hspace)

theorem isStripped_of_isBlank (h : isBlank c = true) : isStripped c = true := by
  rcases eq_of_isBlank h with rfl | rfl <;> rfl

theorem not_isListChar_of_isBlank (h : isBlank c = true) : isListChar c = false := by
  rcases eq_of_isBlank h with rfl | rfl <;> rfl

theorem not_isBlank_of_isNmType (h : isNmType c = true) : isBlank c = false := by
  cases hblank : isBlank c with
  | false => rfl
  | true =>
    rcases eq_of_isBlank hblank with rfl | rfl
    · exact absurd h (by decide)
    · exact absurd h (by decide)

/-- A class without the characters of CMake's lists. -/
theorem not_isListChar_of {p : Char → Bool}
    (hnone : ['\n', ';', '[', ']', '\\'].all (fun a => !p a) = true) (h : p c = true) :
    isListChar c = false := by
  cases hlist : isListChar c with
  | false => rfl
  | true =>
    have hc := List.all_eq_true.mp hnone c (List.contains_iff_mem.mp hlist)
    rw [h] at hc
    cases hc

theorem not_isBlank_of_isHex (h : isHex c = true) : isBlank c = false := by
  cases hblank : isBlank c with
  | false => rfl
  | true => rw [not_isHex_of_isBlank hblank] at h; cases h

theorem not_isStripped_of_isIdentifier (h : isIdentifier c = true) : isStripped c = false := by
  simp only [isIdentifier, Bool.or_eq_true, Bool.and_eq_true, decide_eq_true_eq, beq_iff_eq] at h
  simp only [isStripped, Bool.or_eq_false_iff, Bool.and_eq_false_iff, decide_eq_false_iff_not,
    beq_eq_false_iff_ne]
  omega

end classes

/-- A text that is stripped does not begin with white space. -/
theorem strip_head {c : Char} {w : List Char} (h : strip (c :: w) = c :: w) :
    isStripped c = false := by
  cases hc : isStripped c with
  | false => rfl
  | true =>
    have hleft : ((c :: w).dropWhile isStripped).length ≤ w.length := by
      rw [List.dropWhile_cons_of_pos hc]
      exact (List.dropWhile_suffix _).length_le
    have hright := (List.dropWhile_suffix (l := ((c :: w).dropWhile isStripped).reverse)
      isStripped).length_le
    have hlength := congrArg List.length h
    simp only [strip, List.length_reverse, List.length_cons] at hlength hright
    omega

theorem SymbolName.stops_isBlank (name : SymbolName) : Stops isBlank name.chars := by
  cases hchars : name.chars with
  | nil => exact absurd hchars name.ne
  | cons c w =>
    have hstripped := name.stripped
    rw [hchars] at hstripped
    have hhead := strip_head hstripped
    apply stops_cons
    cases hblank : isBlank c with
    | false => rfl
    | true =>
      rw [isStripped_of_isBlank hblank] at hhead
      cases hhead

/-- Every C identifier is a name of a symbol. -/
def Identifier.symbol (name : Identifier) : SymbolName where
  chars := name.chars
  ne := name.ne
  all := by
    rw [List.all_eq_true]
    intro c hc
    rw [Bool.not_eq_true']
    exact not_isListChar_of rfl (name.mem c hc)
  stripped := by
    have hnone : ∀ w : List Char, (∀ c ∈ w, isIdentifier c = true) →
        w.dropWhile isStripped = w := by
      intro w hw
      cases w with
      | nil => rfl
      | cons c w =>
        rw [List.dropWhile_cons_of_neg]
        rw [not_isStripped_of_isIdentifier (hw c List.mem_cons_self)]
        exact Bool.false_ne_true
    unfold strip
    rw [hnone _ name.mem, hnone _ (fun c hc => name.mem c (List.mem_reverse.mp hc)),
      List.reverse_reverse]
  notOff := by
    rw [← Bool.not_eq_true, List.isSuffixOf_iff_suffix]
    intro hoff
    have hdash := name.mem '-' (hoff.subset List.mem_cons_self)
    revert hdash
    decide

/-- What the expression captures of a line. -/
def NmLine.captured (l : NmLine) : Groups :=
  Function.update (Function.update (Function.update (fun _ => none) 1 (some l.addr.chars))
    2 (some [l.type])) 3 (some l.name.chars)

/-- A line of an exported type matches. -/
theorem matchAt_nmLine (l : NmLine) (htype : isExportedType l.type = true) :
    ∃ last, matchAt NM_LINE none l.chars =
      some { before := last, rest := [], groups := l.captured } := by
  refine ⟨l.name.chars.getLast?, ?_⟩
  have hgap : Stops isHex (l.gap₁.chars ++ (l.type :: (l.gap₂.chars ++ l.name.chars))) :=
    l.gap₁.stops not_isHex_of_isBlank
  have hletter : Stops isBlank (l.type :: (l.gap₂.chars ++ l.name.chars)) :=
    stops_cons (not_isBlank_of_isNmType l.type_letter)
  have hname : Stops isBlank l.name.chars := l.name.stops_isBlank
  simp only [matchAt, NM_LINE, run_seq, NmLine.chars]
  rw [run_lineStart (.inl rfl)]
  apply run_group_token l.addr hgap rfl
  apply run_token l.gap₁ id hletter rfl
  rw [run_seq, run_group_char rfl htype]
  apply run_token l.gap₂ id hname rfl
  apply run_group_plus l.name.ne (fun _ _ => rfl) stops_nil (List.append_nil _).symm
  exact run_textEnd rfl

/-- A line of another type does not match. -/
theorem matchAt_nmLine_none (l : NmLine) (htype : isExportedType l.type = false) :
    matchAt NM_LINE none l.chars = none := by
  simp only [matchAt, NM_LINE, run_seq, NmLine.chars]
  rw [run_lineStart (.inl rfl)]
  -- behind a part of the address, either it goes on or the gap begins
  apply plusLoop_none_of_stops (l.gap₁.stops not_isHex_of_isBlank)
  intro pre c digits haddr
  cases digits with
  | cons d digits =>
    apply plusLoop_stops
    exact stops_cons (not_isBlank_of_isHex (l.addr.mem d (by rw [haddr]; simp)))
  | nil =>
    have hletter : Stops isBlank (l.type :: (l.gap₂.chars ++ l.name.chars)) :=
      stops_cons (not_isBlank_of_isNmType l.type_letter)
    apply plusLoop_none_of_stops hletter
    intro pre' c' blanks hgap
    -- what stands there is a blank of the gap or the type
    rw [run_seq]
    apply run_group_char_none
    cases blanks with
    | cons d blanks =>
      exact stops_cons (not_isExportedType_of_isBlank (l.gap₁.mem d (by rw [hgap]; simp)))
    | nil => exact stops_cons htype

/-! ## Section 4: The lines of a listing -/

/-- No word that is false has a blank. -/
theorem isBlank_notMem_offWords {w : List Char} (h : w ∈ offWords) :
    ∀ c ∈ w, isBlank c = false := by
  have hnone : offWords.all (fun w => w.all fun c => !isBlank c) = true := rfl
  intro c hc
  have hchars := List.all_eq_true.mp (List.all_eq_true.mp hnone w h) c hc
  rwa [Bool.not_eq_true'] at hchars

/-- A line is false only on account of its symbol. -/
theorem isOff_nmLine (l : NmLine) : isOff l.chars = false := by
  obtain ⟨blanks, c, hgap⟩ := List.eq_nil_or_concat' l.gap₂.chars |>.resolve_left l.gap₂.ne
  have hblank : isBlank c = true := l.gap₂.mem c (by rw [hgap]; simp)
  have hsuffix : c :: l.name.chars <:+ l.chars := by
    refine ⟨l.addr.chars ++ (l.gap₁.chars ++ (l.type :: blanks)), ?_⟩
    simp only [NmLine.chars, hgap, List.append_assoc, List.cons_append, List.nil_append]
  have hmem : c ∈ l.chars := hsuffix.subset List.mem_cons_self
  have hne : l.chars ≠ [] := List.ne_nil_of_mem hmem
  have hupper : isBlank c.toUpper = true := by
    rcases eq_of_isBlank hblank with rfl | rfl <;> rfl
  have hword : offWords.contains (l.chars.map Char.toUpper) = false := by
    rw [← Bool.not_eq_true, List.contains_iff_mem]
    intro hoff
    rw [isBlank_notMem_offWords hoff _ (List.mem_map_of_mem hmem)] at hupper
    cases hupper
  have habsent : ∀ w : List Char, w.all (fun a => !isBlank a) = true → c ∉ w := by
    intro w hw hc
    have hfalse := List.all_eq_true.mp hw c hc
    rw [hblank] at hfalse
    cases hfalse
  have hequal : (l.chars == "NOTFOUND".toList) = false := by
    rw [beq_eq_false_iff_ne]
    intro heq
    rw [heq] at hmem
    exact habsent _ rfl hmem
  have hend : "-NOTFOUND".toList.isSuffixOf l.chars = false := by
    rw [← Bool.not_eq_true, List.isSuffixOf_iff_suffix]
    intro hoff
    -- such an end lies within the symbol, or reaches over the blank before it
    rcases Nat.lt_or_ge l.name.chars.length "-NOTFOUND".toList.length with hshort | hlong
    · have hover := List.suffix_of_suffix_length_le hsuffix hoff hshort
      exact habsent _ rfl (hover.subset List.mem_cons_self)
    · have hname : l.name.chars <:+ l.chars := (List.suffix_cons c _).trans hsuffix
      have hwithin := List.suffix_of_suffix_length_le hoff hname hlong
      rw [← List.isSuffixOf_iff_suffix, l.name.notOff] at hwithin
      cases hwithin
  simp only [isOff, List.isEmpty_eq_false_iff.mpr hne, hword, hequal, hend, Bool.or_false]

/-- What the loop exports for a line. -/
theorem exportLine_chars (DEVICE_NAME : List Char) (l : NmLine) :
    exportLine DEVICE_NAME l.chars =
      if l.IsPublic then some (l.exported DEVICE_NAME) else none := by
  unfold exportLine
  rw [isOff_nmLine]
  by_cases htype : isExportedType l.type = true
  · obtain ⟨last, hmatch⟩ := matchAt_nmLine l htype
    have haddr : l.captured 1 = some l.addr.chars := rfl
    have hname : l.captured 3 = some l.name.chars := rfl
    simp only [hmatch, haddr, hname, Option.bind_eq_bind, Option.bind_some, Option.map_some,
      l.name.stripped, Bool.false_eq_true, if_false]
    by_cases hprefix : "__".toList.isPrefixOf l.name.chars = true
    · rw [if_pos hprefix, if_neg (fun hpublic => by rw [hpublic.2] at hprefix; cases hprefix)]
    · rw [if_neg hprefix, if_pos ⟨htype, Bool.not_eq_true _ ▸ hprefix⟩]
      rfl
  · have hnone : matchAt NM_LINE none l.chars = none :=
      matchAt_nmLine_none l (Bool.not_eq_true _ ▸ htype)
    rw [if_neg Bool.false_ne_true, if_neg (fun hpublic => htype hpublic.1)]
    simp only [hnone, Option.bind_eq_bind, Option.bind_none]

/-- A line has no character that a CMake list gives a meaning to. -/
theorem not_isListChar_chars (l : NmLine) : ∀ c ∈ l.chars, isListChar c = false := by
  intro c hc
  simp only [NmLine.chars, List.mem_append, List.mem_cons] at hc
  rcases hc with haddr | hgap | rfl | hgap | hname
  · exact not_isListChar_of rfl (l.addr.mem c haddr)
  · exact not_isListChar_of_isBlank (l.gap₁.mem c hgap)
  · exact not_isListChar_of rfl l.type_letter
  · exact not_isListChar_of_isBlank (l.gap₂.mem c hgap)
  · rw [← Bool.not_eq_true']
    exact l.name.mem c hname

/-- Such characters go into the element as they are. -/
theorem listElements_line {w : List Char} (rest : List Char)
    (hw : ∀ c ∈ w, isListChar c = false) :
    listElements false 0 (w ++ ';' :: rest) = w :: listElements false 0 rest := by
  induction w with
  | nil =>
    rw [List.nil_append, listElements]
    simp
  | cons c w ih =>
    have hplain := hw c List.mem_cons_self
    simp only [isListChar, List.contains_eq_mem, List.mem_cons, List.not_mem_nil, or_false,
      decide_eq_false_iff_not, not_or] at hplain
    obtain ⟨_, hsemicolon, hopen, hclose, hback⟩ := hplain
    have hbracket : bracket c = 0 := by rw [bracket, if_neg hopen, if_neg hclose]
    rw [List.cons_append, listElements]
    simp only [Bool.false_eq_true, if_false, hback, false_and, hsemicolon, hbracket, Int.add_zero,
      ih fun c hc => hw c (List.mem_cons_of_mem _ hc), List.modifyHead_cons]

theorem replaceNewlines_line (l : NmLine) (rest : List Char) :
    replaceNewlines (l.chars ++ '\n' :: rest) = l.chars ++ ';' :: replaceNewlines rest := by
  have hsame : replaceNewlines l.chars = l.chars := by
    refine (List.map_congr_left fun c hc => ?_).trans (List.map_id _)
    apply if_neg
    rintro rfl
    exact absurd (not_isListChar_chars l _ hc) (by decide)
  unfold replaceNewlines at *
  rw [List.map_append, hsame]
  rfl

/-- The lines of a listing, and nothing behind the last one. -/
theorem nmLines_text (ls : List NmLine) :
    nmLines (text NmLine.chars ls) = ls.map NmLine.chars ++ [[]] := by
  induction ls with
  | nil => rfl
  | cons l ls ih =>
    unfold nmLines at *
    rw [text_cons, replaceNewlines_line, listElements_line _ (not_isListChar_chars l), ih]
    rfl

/-- **What a device exports**: each of its public symbols, with the name
    of the device in front. -/
theorem exportedSymbols_text (DEVICE_NAME : List Char) (nm : List NmLine) :
    exportedSymbols DEVICE_NAME (text NmLine.chars nm) =
      (nm.filter (fun l => l.IsPublic)).map (fun l => l.exported DEVICE_NAME) := by
  have hend : exportLine DEVICE_NAME [] = none := rfl
  unfold exportedSymbols
  rw [nmLines_text, List.filterMap_append, List.filterMap_cons_none hend, List.filterMap_nil,
    List.append_nil]
  induction nm with
  | nil => rfl
  | cons l ls ih =>
    rw [List.map_cons, List.filterMap_cons, exportLine_chars]
    by_cases hpublic : l.IsPublic
    · simp only [hpublic, if_true, List.map_cons, ih, decide_true, List.filter_cons_of_pos]
    · simp only [hpublic, if_false, ih, decide_false, Bool.false_eq_true, not_false_eq_true,
        List.filter_cons_of_neg]

/-- The two files have one entry for every public symbol of a listing, and
    no other. -/
theorem symbolFiles_text (DEVICE_NAME : List Char) (nm : List NmLine) :
    chimera_generate_symbols DEVICE_NAME (text NmLine.chars nm) =
      { ASM_SYMS := (nm.filter (fun l => l.IsPublic)).flatMap fun l =>
          (l.exported DEVICE_NAME).asm
        H_DECLS := (nm.filter (fun l => l.IsPublic)).flatMap fun l =>
          (l.exported DEVICE_NAME).decl } := by
  unfold chimera_generate_symbols
  rw [exportedSymbols_text, List.flatMap_map, List.flatMap_map]

example : (exportedSymbols "cluster".toList
    "48000000 T main\n48001800 D __global_pointer$\n48002000 b buf.0\n".toList).map Exported.psym =
      ["cluster_main".toList, "cluster_buf.0".toList] := by
  decide

theorem mem_exports {d : Device} {n : List Char} : n ∈ d.exports ↔
    ∃ l ∈ d.nm, l.IsPublic ∧ n = d.name.chars ++ '_' :: l.name.chars := by
  unfold Device.exports
  rw [exportedSymbols_text, List.map_map, List.mem_map]
  constructor
  · rintro ⟨l, hl, rfl⟩
    obtain ⟨hmem, hpublic⟩ := List.mem_filter.mp hl
    exact ⟨l, hmem, of_decide_eq_true hpublic, rfl⟩
  · rintro ⟨l, hmem, hpublic, rfl⟩
    exact ⟨l, List.mem_filter.mpr ⟨hmem, decide_eq_true hpublic⟩, rfl⟩

/-! ## Section 5: Collisions -/

/-- Two words joined by a separator are the same in three ways: the parts
    are the same, or the first part of one goes on behind a separator with
    the beginning of the other's second part. -/
theorem append_sep_eq_iff {α : Type} {sep : α} {a b c d : List α} :
    a ++ sep :: b = c ++ sep :: d ↔ (a = c ∧ b = d) ∨
      (∃ x, c = a ++ sep :: x ∧ b = x ++ sep :: d) ∨
      (∃ x, a = c ++ sep :: x ∧ d = x ++ sep :: b) := by
  constructor
  · intro heq
    -- one first part is the beginning of the other
    rcases List.append_eq_append_iff.mp heq with ⟨m, hc, hb⟩ | ⟨m, ha, hd⟩
    · cases m with
      | nil =>
        rw [List.append_nil] at hc
        exact .inl ⟨hc.symm, (List.cons.inj hb).2⟩
      | cons e x =>
        obtain ⟨rfl, hrest⟩ := List.cons.inj hb
        exact .inr (.inl ⟨x, hc, hrest⟩)
    · cases m with
      | nil =>
        rw [List.append_nil] at ha
        exact .inl ⟨ha, (List.cons.inj hd).2.symm⟩
      | cons e x =>
        obtain ⟨rfl, hrest⟩ := List.cons.inj hd
        exact .inr (.inr ⟨x, ha, hrest⟩)
  · rintro (⟨rfl, rfl⟩ | ⟨x, rfl, rfl⟩ | ⟨x, rfl, rfl⟩)
    · rfl
    · rw [List.append_assoc, List.cons_append]
    · rw [List.append_assoc, List.cons_append]

/-- The name of `d'` is the name of `d`, an underscore and `x`; `d` has a
    public symbol `x_s` and `d'` has the public symbol `s`. -/
def Collides (d d' : Device) : Prop :=
  ∃ x, d'.name.chars = d.name.chars ++ '_' :: x ∧ ∃ l ∈ d.nm, ∃ l' ∈ d'.nm,
    l.IsPublic ∧ l'.IsPublic ∧ l.name.chars = x ++ '_' :: l'.name.chars

/-- No device name goes on behind itself. -/
theorem not_collides_self (d : Device) : ¬ Collides d d := by
  rintro ⟨x, heq, -⟩
  have hlength := congrArg List.length heq
  rw [List.length_append, List.length_cons] at hlength
  omega

/-- Two devices with different names. -/
theorem exports_disjoint_iff {d d' : Device} (hne : d.name.chars ≠ d'.name.chars) :
    (∀ n ∈ d.exports, n ∉ d'.exports) ↔ ¬ Collides d d' ∧ ¬ Collides d' d := by
  constructor
  · intro hdisjoint
    refine ⟨?_, ?_⟩
    · rintro ⟨x, hname, l, hl, l', hl', hpublic, hpublic', hsym⟩
      apply hdisjoint _ (mem_exports.mpr ⟨l, hl, hpublic, rfl⟩)
      refine mem_exports.mpr ⟨l', hl', hpublic', ?_⟩
      exact append_sep_eq_iff.mpr (.inr (.inl ⟨x, hname, hsym⟩))
    · rintro ⟨x, hname, l', hl', l, hl, hpublic', hpublic, hsym⟩
      apply hdisjoint _ (mem_exports.mpr ⟨l, hl, hpublic, rfl⟩)
      refine mem_exports.mpr ⟨l', hl', hpublic', ?_⟩
      exact append_sep_eq_iff.mpr (.inr (.inr ⟨x, hname, hsym⟩))
  · rintro ⟨hleft, hright⟩ n hn hn'
    obtain ⟨l, hl, hpublic, rfl⟩ := mem_exports.mp hn
    obtain ⟨l', hl', hpublic', heq⟩ := mem_exports.mp hn'
    rcases append_sep_eq_iff.mp heq with ⟨hsame, _⟩ | ⟨x, hname, hsym⟩ | ⟨x, hname, hsym⟩
    · exact hne hsame
    · exact hleft ⟨x, hname, l, hl, l', hl', hpublic, hpublic', hsym⟩
    · exact hright ⟨x, hname, l', hl', l, hl, hpublic', hpublic, hsym⟩

/-- **Name collisions**: for every build whose devices have pairwise
    distinct names, the exported names of different devices are pairwise
    different exactly when no two devices collide. -/
theorem exports_apart_iff (devices : List Device)
    (hnames : devices.Pairwise (fun d d' => d.name.chars ≠ d'.name.chars)) :
    devices.Pairwise (fun d d' => ∀ n ∈ d.exports, n ∉ d'.exports) ↔
      ∀ d ∈ devices, ∀ d' ∈ devices, ¬ Collides d d' := by
  constructor
  · intro hapart
    have hpairs : devices.Pairwise (fun d d' => ¬ Collides d d' ∧ ¬ Collides d' d) :=
      hapart.imp₂ (fun _ _ hdisjoint hne => (exports_disjoint_iff hne).mp hdisjoint) hnames
    have hall := List.Pairwise.forall_of_forall_of_flip (fun d _ => not_collides_self d)
      (hpairs.imp And.left) (hpairs.imp And.right)
    exact fun d hd d' hd' => hall hd hd'
  · intro hall
    apply hnames.imp_of_mem
    intro d d' hd hd' hne
    exact (exports_disjoint_iff hne).mpr ⟨hall d hd d' hd', hall d' hd' d hd⟩

/-! ### Two builds -/

def baseAddress : Token isHex where
  chars := "48000000".toList
  ne := List.cons_ne_nil _ _
  all := rfl

/-- A function at address `0x48000000`. -/
def textLine (name : SymbolName) : NmLine where
  addr := baseAddress
  gap₁ := oneBlank
  type := 'T'
  type_letter := rfl
  gap₂ := oneBlank
  name := name

theorem head_of_letter {c : Char} {w : List Char} (h : ¬ (48 ≤ c.toNat ∧ c.toNat ≤ 57)) :
    ∀ a, (c :: w).head? = some a → ¬ (48 ≤ a.toNat ∧ a.toNat ≤ 57) := by
  intro a ha
  obtain rfl := Option.some.inj ha
  exact h

/-- An identifier that begins with a letter. -/
def identifier (c : Char) (w : List Char) (hall : (c :: w).all isIdentifier = true)
    (hhead : ¬ (48 ≤ c.toNat ∧ c.toNat ≤ 57)) : Identifier where
  chars := c :: w
  ne := List.cons_ne_nil _ _
  all := hall
  head := head_of_letter hhead

def mainSymbol : SymbolName := (identifier 'm' "ain".toList rfl (by decide)).symbol
def bMainSymbol : SymbolName := (identifier 'b' "_main".toList rfl (by decide)).symbol

def cluster : Identifier := identifier 'c' "luster".toList rfl (by decide)
def cluster_b : Identifier := identifier 'c' "luster_b".toList rfl (by decide)
def dma : Identifier := identifier 'd' "ma".toList rfl (by decide)

/-- Two devices that both have a `main`. -/
theorem cluster_dma_apart :
    [Device.mk cluster [textLine mainSymbol], Device.mk dma [textLine mainSymbol]].Pairwise
      (fun d d' => ∀ n ∈ d.exports, n ∉ d'.exports) := by
  apply (exports_apart_iff _ (by decide)).mpr
  intro d hd d' hd'
  rcases List.mem_pair.mp hd with rfl | rfl
  · rcases List.mem_pair.mp hd' with rfl | rfl
    · exact not_collides_self _
    · rintro ⟨x, hname, -⟩
      exact absurd (List.cons.inj hname).1 (by decide)
  · rcases List.mem_pair.mp hd' with rfl | rfl
    · rintro ⟨x, hname, -⟩
      exact absurd (List.cons.inj hname).1 (by decide)
    · exact not_collides_self _

/-- `cluster_b_main` is `b_main` of `cluster` and `main` of `cluster_b`. -/
theorem cluster_b_main_collides :
    ¬ ∀ devices : List Device,
      devices.Pairwise (fun d d' => d.name.chars ≠ d'.name.chars) →
      devices.Pairwise (fun d d' => ∀ n ∈ d.exports, n ∉ d'.exports) := by
  intro hall
  have hpair := hall [Device.mk cluster [textLine bMainSymbol],
    Device.mk cluster_b [textLine mainSymbol]] (by decide)
  have hdisjoint := List.pairwise_pair.mp hpair
  apply hdisjoint "cluster_b_main".toList
  · exact mem_exports.mpr ⟨_, List.mem_singleton_self _, by decide, rfl⟩
  · exact mem_exports.mpr ⟨_, List.mem_singleton_self _, by decide, rfl⟩

end ChimeraBuildHelpers
