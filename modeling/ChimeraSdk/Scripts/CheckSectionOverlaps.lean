import Mathlib.Data.List.Lex
import Mathlib.Data.List.Pairwise
import Mathlib.Data.Prod.Lex
import Mathlib.Data.Char
import ChimeraSdk.Framework.RegexScan

/-! # The Section-Overlap Checker

    `check_section_overlaps.py` reads one `llvm-objdump -h` listing per
    binary and compares the sections of different binaries pair by pair.
    It returns zero for a clean layout.

    The listings are texts; a regular expression finds the section lines
    in them.  The binary that a section belongs to is known to the checks
    only by a name taken from the path of its listing. -/

open Regex

namespace CheckSectionOverlaps

/-! ## Section 1: The parser -/

/-- `\s` -/
def isSpace (c : Char) : Bool :=
  (9 ≤ c.toNat && c.toNat ≤ 13) || (28 ≤ c.toNat && c.toNat ≤ 32) || c.toNat == 0x85 ||
  c.toNat == 0xA0 || c.toNat == 0x1680 || (0x2000 ≤ c.toNat && c.toNat ≤ 0x200A) ||
  c.toNat == 0x2028 || c.toNat == 0x2029 || c.toNat == 0x202F || c.toNat == 0x205F ||
  c.toNat == 0x3000

/-- `\d`, for the decimal digits that the tool writes. -/
def isDigit (c : Char) : Bool := 48 ≤ c.toNat && c.toNat ≤ 57

/-- `[0-9a-fA-F]` -/
def isHex (c : Char) : Bool :=
  isDigit c || (65 ≤ c.toNat && c.toNat ≤ 70) || (97 ≤ c.toNat && c.toNat ≤ 102)

/-- `[A-Z]` -/
def isUpper (c : Char) : Bool := 65 ≤ c.toNat && c.toNat ≤ 90

/-- `\S` -/
def isNonSpace (c : Char) : Bool := !isSpace c

/-- `_SECTION_RE` behind its anchor: index, name (1), size (2), VMA (3),
    optional LMA (4) and type (5). -/
def sectionFields : Re :=
  .seq (.plus isSpace) <| .seq (.plus isDigit) <| .seq (.plus isSpace) <|
  .seq (.group 1 (.plus isNonSpace)) <| .seq (.plus isSpace) <|
  .seq (.group 2 (.plus isHex)) <| .seq (.plus isSpace) <|
  .seq (.group 3 (.plus isHex)) <| .seq (.plus isSpace) <|
  .seq (.optional (.seq (.group 4 (.plus isHex)) (.plus isSpace))) <|
  .group 5 (.plus isUpper)

def SECTION_RE : Re := .seq .lineStart sectionFields

def hexDigit (c : Char) : Nat :=
  if c.toNat ≤ 57 then c.toNat - 48
  else if c.toNat ≤ 70 then c.toNat - 55
  else c.toNat - 87

/-- `int(w, 16)` -/
def int16 (w : List Char) : Nat := w.foldl (fun n c => 16 * n + hexDigit c) 0

/-- The data class `Section`.  The ends are exclusive. -/
structure Section where
  binary : List Char
  name : List Char
  vma_start : Nat
  vma_end : Nat
  lma_start : Nat
  lma_end : Nat
  sec_type : List Char
  deriving DecidableEq, Repr

/-- One match of the expression; a section at VMA zero is skipped. -/
def sectionOf (binary_name : List Char) (m : Groups) : Option Section := do
  let sec_name ← m 1
  let size ← (m 2).map int16
  let vma ← (m 3).map int16
  let lma := ((m 4).map int16).getD vma
  let sec_type ← m 5
  if vma = 0 then none
  else some {
    binary := binary_name
    name := sec_name
    vma_start := vma
    vma_end := vma + size
    lma_start := lma
    lma_end := lma + size
    sec_type := sec_type }

/-- A listing that does not exist has no sections. -/
def parse_sections_file (file : Option (List Char)) (binary_name : List Char) : List Section :=
  match file with
  | none => []
  | some chars => (finditer SECTION_RE none 0 chars).filterMap (sectionOf binary_name)

/-! ## Section 2: The checks -/

inductive AddrSpace where
  | VMA
  | LMA
  deriving DecidableEq, Repr

def Section.start (s : Section) : AddrSpace → Nat
  | .VMA => s.vma_start
  | .LMA => s.lma_start

def Section.stop (s : Section) : AddrSpace → Nat
  | .VMA => s.vma_end
  | .LMA => s.lma_end

/-- The L1 alias, skipped in the comparison of VMAs. -/
def L1_ALIAS : Nat := 0x18000000

/-- The comparison of two sections in the inner loop. -/
def overlaps (addr_space : AddrSpace) (a b : Section) : Bool :=
  if a.binary = b.binary then false
  -- meant for `.common`, but no name is tested
  else if a.name = b.name ∧ a.vma_start = b.vma_start then false
  else a.start addr_space < b.stop addr_space && b.start addr_space < a.stop addr_space

def check_overlaps (addr_space : AddrSpace) : List Section → Bool
  | [] => false
  | a :: rest =>
      (!(addr_space = .VMA && a.start addr_space = L1_ALIAS) && rest.any (overlaps addr_space a)) ||
      check_overlaps addr_space rest

/-- `combinations(secs, 2)` -/
def combinations {α : Type} : List α → List (α × α)
  | [] => []
  | a :: rest => rest.map (fun b => (a, b)) ++ combinations rest

/-- The comparison of two sections of the same name. -/
def sizeMismatch (a b : Section) : Bool :=
  if a.binary = b.binary then false
  else if a.vma_start ≠ b.vma_start then false
  else a.vma_end - a.vma_start ≠ b.vma_end - b.vma_start

/-- `by_name`: the sections of every name, in the order of the names'
    first appearance. -/
def byName (sections : List Section) : List (List Char × List Section) :=
  (sections.map (·.name)).eraseDups.map fun n => (n, sections.filter (fun s => s.name = n))

def check_shared_section_sizes (all_sections : List Section) : Bool :=
  (byName (all_sections.filter (fun s => s.name ≠ ".reserved".toList))).any fun (_, secs) =>
    (combinations secs).any fun (a, b) => sizeMismatch a b

/-- The sort key of `main`. -/
def sortKey (s : Section) : ℕ ×ₗ ℕ ×ₗ List Char ×ₗ List Char :=
  toLex (s.lma_start, toLex (s.vma_start, toLex (s.binary, s.name)))

def isLoaded (s : Section) : Bool := s.sec_type = "TEXT".toList || s.sec_type = "DATA".toList

/-- `sections_file.split("/")[-1].split(".")[0]` -/
def binaryName (sections_file : List Char) : List Char :=
  (((sections_file.splitOn '/').getLastD []).splitOn '.').headD []

/-- `main` for a list of paths, each with the listing found there. -/
def main (files : List (List Char × Option (List Char))) : Nat :=
  let all_sections := files.flatMap (fun f => parse_sections_file f.2 (binaryName f.1))
  if all_sections = [] then 0
  else
    let all_sections := all_sections.mergeSort (fun a b => decide (sortKey a ≤ sortKey b))
    let loaded := all_sections.filter isLoaded
    if check_overlaps .VMA loaded || check_overlaps .LMA loaded ||
      check_shared_section_sizes all_sections then 1 else 0

/-! ## Section 3: Listings in the documented format -/

def isBlank (c : Char) : Bool := c.toNat == 9 || c.toNat == 32

/-- A non-empty word over a class of characters. -/
structure Token (p : Char → Bool) where
  chars : List Char
  ne : chars ≠ []
  all : chars.all p = true

theorem Token.mem {p : Char → Bool} (w : Token p) : ∀ c ∈ w.chars, p c = true :=
  List.all_eq_true.mp w.all

def oneBlank : Token isBlank where
  chars := [' ']
  ne := List.cons_ne_nil _ _
  all := rfl

/-- `<spaces> <idx> <name> <size_hex> <vma_hex> [<lma_hex>] <TYPE>` -/
structure SectionLine where
  indent : Token isBlank
  idx : Token isDigit
  gap₁ : Token isBlank
  name : Token isNonSpace
  gap₂ : Token isBlank
  size : Token isHex
  gap₃ : Token isBlank
  vma : Token isHex
  gap₄ : Token isBlank
  lma : Option (Token isHex × Token isBlank)
  type : Token isUpper

def SectionLine.lmaChars (l : SectionLine) : List Char :=
  match l.lma with
  | none => []
  | some (lma, gap) => lma.chars ++ gap.chars

def SectionLine.chars (l : SectionLine) : List Char :=
  l.indent.chars ++ (l.idx.chars ++ (l.gap₁.chars ++ (l.name.chars ++ (l.gap₂.chars ++
    (l.size.chars ++ (l.gap₃.chars ++ (l.vma.chars ++ (l.gap₄.chars ++ (l.lmaChars ++
      l.type.chars)))))))))

/-- The section that a line describes. -/
def SectionLine.toSection (binary_name : List Char) (l : SectionLine) : Option Section :=
  let vma := int16 l.vma.chars
  let lma := match l.lma with
    | some (w, _) => int16 w.chars
    | none => vma
  let size := int16 l.size.chars
  if vma = 0 then none
  else some {
    binary := binary_name
    name := l.name.chars
    vma_start := vma
    vma_end := vma + size
    lma_start := lma
    lma_end := lma + size
    sec_type := l.type.chars }

/-- What the expression captures of a line. -/
def SectionLine.captured (l : SectionLine) : Groups :=
  let fields := Function.update (Function.update (Function.update (fun _ => none)
    1 (some l.name.chars)) 2 (some l.size.chars)) 3 (some l.vma.chars)
  let fields := match l.lma with
    | some (w, _) => Function.update fields 4 (some w.chars)
    | none => fields
  Function.update fields 5 (some l.type.chars)

section classes
variable {c : Char}

theorem isSpace_of_isBlank (h : isBlank c = true) : isSpace c = true := by
  simp only [isBlank, Bool.or_eq_true, beq_iff_eq] at h
  simp only [isSpace, Bool.or_eq_true, Bool.and_eq_true, decide_eq_true_eq, beq_iff_eq]
  omega

theorem not_isDigit_of_isBlank (h : isBlank c = true) : isDigit c = false := by
  simp only [isBlank, Bool.or_eq_true, beq_iff_eq] at h
  simp only [isDigit, Bool.and_eq_false_iff, decide_eq_false_iff_not]
  omega

theorem not_isHex_of_isBlank (h : isBlank c = true) : isHex c = false := by
  simp only [isBlank, Bool.or_eq_true, beq_iff_eq] at h
  simp only [isHex, isDigit, Bool.or_eq_false_iff, Bool.and_eq_false_iff,
    decide_eq_false_iff_not]
  omega

theorem not_isUpper_of_isBlank (h : isBlank c = true) : isUpper c = false := by
  simp only [isBlank, Bool.or_eq_true, beq_iff_eq] at h
  simp only [isUpper, Bool.and_eq_false_iff, decide_eq_false_iff_not]
  omega

theorem not_isNonSpace_of_isBlank (h : isBlank c = true) : isNonSpace c = false := by
  simp [isNonSpace, isSpace_of_isBlank h]

theorem not_isSpace_of_isDigit (h : isDigit c = true) : isSpace c = false := by
  simp only [isDigit, Bool.and_eq_true, decide_eq_true_eq] at h
  simp only [isSpace, Bool.or_eq_false_iff, Bool.and_eq_false_iff, decide_eq_false_iff_not,
    beq_eq_false_iff_ne]
  omega

theorem not_isUpper_of_isDigit (h : isDigit c = true) : isUpper c = false := by
  simp only [isDigit, Bool.and_eq_true, decide_eq_true_eq] at h
  simp only [isUpper, Bool.and_eq_false_iff, decide_eq_false_iff_not]
  omega

theorem not_isSpace_of_isHex (h : isHex c = true) : isSpace c = false := by
  simp only [isHex, isDigit, Bool.or_eq_true, Bool.and_eq_true, decide_eq_true_eq] at h
  simp only [isSpace, Bool.or_eq_false_iff, Bool.and_eq_false_iff, decide_eq_false_iff_not,
    beq_eq_false_iff_ne]
  omega

theorem not_isSpace_of_isUpper (h : isUpper c = true) : isSpace c = false := by
  simp only [isUpper, Bool.and_eq_true, decide_eq_true_eq] at h
  simp only [isSpace, Bool.or_eq_false_iff, Bool.and_eq_false_iff, decide_eq_false_iff_not,
    beq_eq_false_iff_ne]
  omega

theorem not_isSpace_of_isNonSpace (h : isNonSpace c = true) : isSpace c = false := by
  simpa [isNonSpace] using h

end classes

/-- A word of one class stops a run of another. -/
theorem Token.stops {p q : Char → Bool} {rest : List Char} (w : Token p)
    (h : ∀ {c}, p c = true → q c = false) : Stops q (w.chars ++ rest) :=
  stops_append w.ne (fun c hc => h (w.mem c hc))

section parser
variable {k : State → Option State} {s t : State} {rest : List Char}

/-- A class takes a word of a smaller class. -/
theorem run_token {p q : Char → Bool} (w : Token p) (hpq : ∀ {c}, p c = true → q c = true)
    (hstop : Stops q rest) (hrest : s.rest = w.chars ++ rest)
    (hk : k { before := w.chars.getLast?, rest := rest, groups := s.groups } = some t) :
    run (.plus q) k s = some t :=
  run_plus w.ne (fun c hc => hpq (w.mem c hc)) hstop hrest hk

theorem run_group_token {p : Char → Bool} {i : Nat} (w : Token p) (hstop : Stops p rest)
    (hrest : s.rest = w.chars ++ rest)
    (hk : k { before := w.chars.getLast?, rest := rest,
              groups := Function.update s.groups i (some w.chars) } = some t) :
    run (.group i (.plus p)) k s = some t :=
  run_group_plus w.ne w.mem hstop hrest hk

/-- Behind white space comes no upper-case letter. -/
def NoTypeAhead (rest : List Char) : Prop :=
  ∀ pre post, rest = pre ++ post → (∀ c ∈ pre, isSpace c = true) → Stops isUpper post

/-- A line begins with blanks and its index. -/
theorem noTypeAhead_index {pre rest : List Char} (hpre : ∀ c ∈ pre, isBlank c = true)
    (idx : Token isDigit) : NoTypeAhead (pre ++ (idx.chars ++ rest)) := by
  intro spaces post heq hspaces
  obtain ⟨blanks, hsplit, rfl⟩ := (idx.stops not_isSpace_of_isDigit).split heq hspaces
  cases blanks with
  | nil => exact idx.stops not_isUpper_of_isDigit
  | cons d blanks =>
    apply stops_append (List.cons_ne_nil _ _)
    intro c hc
    exact not_isUpper_of_isBlank (hpre c (by rw [hsplit]; simp [hc]))

theorem noTypeAhead_nil : NoTypeAhead [] := by
  intro pre post heq _
  obtain ⟨-, rfl⟩ := List.append_eq_nil_iff.mp heq.symm
  intro c hc
  cases hc

theorem noTypeAhead_text (ls : List SectionLine) : NoTypeAhead (text SectionLine.chars ls) := by
  cases ls with
  | nil => exact noTypeAhead_nil
  | cons l ls =>
    rw [text_cons, SectionLine.chars, List.append_assoc, List.append_assoc]
    exact noTypeAhead_index l.indent.mem l.idx

/-- Without an LMA the optional part fails: a type that begins with hex
    digits is followed by a letter or by the end of the line. -/
theorem run_lma_none (ty : Token isUpper) (hahead : NoTypeAhead rest)
    (hrest : s.rest = ty.chars ++ '\n' :: rest) :
    run (.seq (.group 4 (.plus isHex)) (.plus isSpace)) (run (.group 5 (.plus isUpper)) some) s =
      none := by
  show plusLoop isHex s.groups _ s.rest = none
  rw [hrest]
  have hnl : Stops isHex ('\n' :: rest) := stops_cons rfl
  -- the hexadecimal run stays inside the word of the type
  apply plusLoop_none_of_stops hnl
  intro pre c letters hty
  show plusLoop isSpace _ _ (letters ++ _) = none
  cases letters with
  | nil =>
    -- the type is one hexadecimal word
    refine plusLoop_none ?_
    intro pre' c' post' heq' hpre' hc'
    refine plusLoop_stops ?_
    cases pre' with
    | nil =>
      obtain ⟨-, rfl⟩ := List.cons.inj heq'
      exact hahead [] _ (List.nil_append _).symm (by simp)
    | cons d pre' =>
      obtain ⟨-, heq'⟩ := List.cons.inj heq'
      have hbehind : rest = (pre' ++ [c']) ++ post' := by
        rw [heq']
        simp
      refine hahead _ _ hbehind ?_
      intro x hx
      rcases List.mem_append.mp hx with hx | hx
      · exact hpre' x (List.mem_cons_of_mem _ hx)
      · rw [List.mem_singleton.mp hx]
        exact hc'
  | cons d letters =>
    refine plusLoop_stops (stops_append (List.cons_ne_nil _ _) ?_)
    intro x hx
    exact not_isSpace_of_isUpper (ty.mem x (by rw [hty]; simp [hx]))

/-- The expression matches a line as a whole and captures its fields. -/
theorem matchAt_line (l : SectionLine) (hahead : NoTypeAhead rest) (before : Option Char)
    (hbefore : before = none ∨ before = some '\n') :
    ∃ last, matchAt SECTION_RE before (l.chars ++ '\n' :: rest) =
      some { before := last, rest := '\n' :: rest, groups := l.captured } := by
  refine ⟨l.type.chars.getLast?, ?_⟩
  have hnl : Stops isUpper ('\n' :: rest) := stops_cons rfl
  simp only [matchAt, SECTION_RE, sectionFields, run_seq, SectionLine.chars, List.append_assoc]
  rw [run_lineStart hbefore]
  refine run_token l.indent isSpace_of_isBlank (l.idx.stops not_isSpace_of_isDigit) rfl ?_
  refine run_token l.idx id (l.gap₁.stops not_isDigit_of_isBlank) rfl ?_
  refine run_token l.gap₁ isSpace_of_isBlank (l.name.stops not_isSpace_of_isNonSpace) rfl ?_
  refine run_group_token l.name (l.gap₂.stops not_isNonSpace_of_isBlank) rfl ?_
  refine run_token l.gap₂ isSpace_of_isBlank (l.size.stops not_isSpace_of_isHex) rfl ?_
  refine run_group_token l.size (l.gap₃.stops not_isHex_of_isBlank) rfl ?_
  refine run_token l.gap₃ isSpace_of_isBlank (l.vma.stops not_isSpace_of_isHex) rfl ?_
  refine run_group_token l.vma (l.gap₄.stops not_isHex_of_isBlank) rfl ?_
  -- the optional field is the load address; the type is no word of hex digits
  cases hlma : l.lma with
  | none =>
    simp only [SectionLine.lmaChars, hlma, List.nil_append]
    refine run_token l.gap₄ isSpace_of_isBlank (l.type.stops not_isSpace_of_isUpper) rfl ?_
    rw [run_seq, run_optional_none (run_lma_none l.type hahead rfl)]
    refine run_group_token l.type hnl rfl ?_
    simp [SectionLine.captured, hlma]
  | some field =>
    obtain ⟨lma, gap⟩ := field
    simp only [SectionLine.lmaChars, hlma, List.append_assoc]
    refine run_token l.gap₄ isSpace_of_isBlank (lma.stops not_isSpace_of_isHex) rfl ?_
    refine run_optional_some ?_
    rw [run_seq]
    refine run_group_token lma (gap.stops not_isHex_of_isBlank) rfl ?_
    refine run_token gap isSpace_of_isBlank (l.type.stops not_isSpace_of_isUpper) rfl ?_
    refine run_group_token l.type hnl rfl ?_
    simp [SectionLine.captured, hlma]

/-- There is no line at the end of the text. -/
theorem matchAt_nil (before : Option Char) : matchAt SECTION_RE before [] = none := by
  unfold matchAt SECTION_RE
  by_cases h : before = none ∨ before = some '\n'
  · rw [run_seq, run_lineStart h]
    rfl
  · simp [run, h]

/-- A line ends with a letter of its type. -/
theorem SectionLine.chars_concat (l : SectionLine) : ∃ w c, l.chars = w ++ [c] ∧ c ≠ '\n' := by
  have htype := List.dropLast_append_getLast l.type.ne
  have hupper := l.type.mem _ (List.getLast_mem l.type.ne)
  refine ⟨l.indent.chars ++ l.idx.chars ++ l.gap₁.chars ++ l.name.chars ++ l.gap₂.chars ++
    l.size.chars ++ l.gap₃.chars ++ l.vma.chars ++ l.gap₄.chars ++ l.lmaChars ++
    l.type.chars.dropLast, l.type.chars.getLast l.type.ne, ?_, ?_⟩
  · rw [List.append_assoc _ l.type.chars.dropLast, htype]
    simp only [SectionLine.chars, List.append_assoc]
  · intro hnl
    rw [hnl] at hupper
    cases hupper

theorem sectionOf_captured (binary_name : List Char) (l : SectionLine) :
    sectionOf binary_name l.captured = l.toSection binary_name := by
  cases hlma : l.lma with
  | none => simp [sectionOf, SectionLine.captured, SectionLine.toSection, hlma, Function.update]
  | some field =>
    simp [sectionOf, SectionLine.captured, SectionLine.toSection, hlma, Function.update]

/-- The parser finds exactly the sections of the listed lines. -/
theorem parse_sections_file_text (ls : List SectionLine) (binary_name : List Char) :
    parse_sections_file (some (text SectionLine.chars ls)) binary_name =
      ls.filterMap (SectionLine.toSection binary_name) := by
  have hfound : finditer SECTION_RE none 0 (text SectionLine.chars ls) =
      ls.map SectionLine.captured := by
    apply finditer_text matchAt_nil SectionLine.chars_concat
    intro l ls before hbefore
    exact matchAt_line l (noTypeAhead_text ls) before hbefore
  simp only [parse_sections_file, hfound, List.filterMap_map]
  congr 1
  funext l
  exact sectionOf_captured binary_name l

end parser

/-! ## Section 4: What the checks report -/

/-- Sections of the same binary, and sections of the same name at the same
    VMA, are not compared. -/
def Exempt (a b : Section) : Prop :=
  a.binary = b.binary ∨ (a.name = b.name ∧ a.vma_start = b.vma_start)

def Clash (addr_space : AddrSpace) (a b : Section) : Prop :=
  ¬ Exempt a b ∧ a.start addr_space < b.stop addr_space ∧ b.start addr_space < a.stop addr_space

/-- The section that is sorted first is at the L1 alias. -/
def AliasFirst (a b : Section) : Prop :=
  if a.lma_start < b.lma_start ∨ (a.lma_start = b.lma_start ∧ a.vma_start < b.vma_start) then
    a.vma_start = L1_ALIAS
  else b.vma_start = L1_ALIAS

/-- Two sections that the checker reports, whatever the other sections. -/
inductive Reported (a b : Section) : Prop where
  | vma : isLoaded a = true → isLoaded b = true → Clash .VMA a b → ¬ AliasFirst a b → Reported a b
  | lma : isLoaded a = true → isLoaded b = true → Clash .LMA a b → Reported a b
  | size : a.name ≠ ".reserved".toList → a.name = b.name → a.binary ≠ b.binary →
      a.vma_start = b.vma_start → a.vma_end - a.vma_start ≠ b.vma_end - b.vma_start → Reported a b

section checks
variable {a b : Section} {addr_space : AddrSpace} {l : List Section}

theorem Clash.symm (h : Clash addr_space a b) : Clash addr_space b a := by
  obtain ⟨hexempt, hab, hba⟩ := h
  refine ⟨?_, hba, hab⟩
  rintro (hbin | ⟨hname, hvma⟩)
  · exact hexempt (.inl hbin.symm)
  · exact hexempt (.inr ⟨hname.symm, hvma.symm⟩)

theorem not_clash_self : ¬ Clash addr_space a a := fun h => h.1 (.inl rfl)

theorem overlaps_iff : overlaps addr_space a b = true ↔ Clash addr_space a b := by
  unfold overlaps Clash Exempt
  split
  · simp [*]
  · split
    · simp [*]
    · simp [*]

theorem aliasFirst_symm (h : AliasFirst a b) : AliasFirst b a := by
  unfold AliasFirst at h ⊢
  split at h <;> split <;> omega

/-- In sorted order the first of a pair decides. -/
theorem aliasFirst_iff (h : sortKey a ≤ sortKey b) : AliasFirst a b ↔ a.vma_start = L1_ALIAS := by
  have hkey : a.lma_start < b.lma_start ∨
      (a.lma_start = b.lma_start ∧ a.vma_start ≤ b.vma_start) := by
    rcases Prod.Lex.toLex_le_toLex.mp h with hlt | ⟨heq, hle⟩
    · exact .inl hlt
    · rcases Prod.Lex.toLex_le_toLex.mp hle with hlt | ⟨heq', -⟩
      · exact .inr ⟨heq, hlt.le⟩
      · exact .inr ⟨heq, heq'.le⟩
  unfold AliasFirst
  split <;> omega

/-- A symmetric relation holds pairwise if it holds of any two members. -/
theorem pairwise_iff_forall {R : Section → Section → Prop} (hrefl : ∀ a, R a a)
    (hsymm : ∀ {a b}, R a b → R b a) : l.Pairwise R ↔ ∀ a ∈ l, ∀ b ∈ l, R a b := by
  have : Std.Symm R := ⟨fun _ _ => hsymm⟩
  constructor
  · intro h a ha b hb
    exact h.forall_of_forall (fun x _ => hrefl x) ha hb
  · intro h
    exact List.pairwise_of_forall_mem_list h

/-- The outer loop passes over a section at the L1 alias only. -/
theorem guard_of_not_alias {a : Section}
    (h : ¬ (addr_space = .VMA ∧ a.start addr_space = L1_ALIAS)) :
    (!(decide (addr_space = .VMA) && decide (a.start addr_space = L1_ALIAS))) = true := by
  rw [← Bool.decide_and, ← decide_not, decide_eq_true_eq]
  exact h

/-- The two nested loops. -/
theorem check_overlaps_eq_false : check_overlaps addr_space l = false ↔
    l.Pairwise (fun a b => Clash addr_space a b →
      addr_space = .VMA ∧ a.start addr_space = L1_ALIAS) := by
  induction l with
  | nil => simp [check_overlaps]
  | cons a rest ih =>
    rw [check_overlaps, Bool.or_eq_false_iff, ih, List.pairwise_cons]
    refine and_congr_left (fun _ => ?_)
    by_cases hskip : addr_space = .VMA ∧ a.start addr_space = L1_ALIAS
    · obtain ⟨rfl, halias⟩ := hskip
      simp [halias]
    · rw [guard_of_not_alias hskip, Bool.true_and, List.any_eq_false]
      simp only [hskip, imp_false, ← overlaps_iff]

theorem check_overlaps_lma : check_overlaps .LMA l = false ↔
    ∀ a ∈ l, ∀ b ∈ l, ¬ Clash .LMA a b := by
  rw [check_overlaps_eq_false, ← pairwise_iff_forall (R := fun a b => ¬ Clash .LMA a b)
    (fun _ => not_clash_self) (fun h hba => h hba.symm)]
  simp

theorem check_overlaps_vma (hsorted : l.Pairwise (fun a b => sortKey a ≤ sortKey b)) :
    check_overlaps .VMA l = false ↔ ∀ a ∈ l, ∀ b ∈ l, Clash .VMA a b → AliasFirst a b := by
  rw [check_overlaps_eq_false,
    ← pairwise_iff_forall (R := fun a b => Clash .VMA a b → AliasFirst a b)
    (fun _ h => absurd h not_clash_self) (fun h hba => aliasFirst_symm (h hba.symm))]
  constructor
  · intro h
    refine (hsorted.and h).imp ?_
    rintro a b ⟨hle, hab⟩ hclash
    exact (aliasFirst_iff hle).mpr (hab hclash).2
  · intro h
    refine (hsorted.and h).imp ?_
    rintro a b ⟨hle, hab⟩ hclash
    exact ⟨rfl, (aliasFirst_iff hle).mp (hab hclash)⟩

theorem sizeMismatch_iff : sizeMismatch a b = true ↔ a.binary ≠ b.binary ∧
    a.vma_start = b.vma_start ∧ a.vma_end - a.vma_start ≠ b.vma_end - b.vma_start := by
  unfold sizeMismatch
  split
  · simp [*]
  · split
    · simp [*]
    · simp_all

theorem mem_combinations_iff {R : Section → Section → Prop} :
    (∀ p ∈ combinations l, R p.1 p.2) ↔ l.Pairwise R := by
  induction l with
  | nil => simp [combinations]
  | cons a rest ih =>
    simp only [combinations, List.forall_mem_append, ih, List.pairwise_cons, List.forall_mem_map]

theorem combinations_any_eq_false :
    ((combinations l).any fun (a, b) => sizeMismatch a b) = false ↔
      ∀ a ∈ l, ∀ b ∈ l, ¬ sizeMismatch a b = true := by
  rw [← pairwise_iff_forall (R := fun a b => ¬ sizeMismatch a b = true), ← mem_combinations_iff,
    List.any_eq_false]
  · intro a h
    exact (sizeMismatch_iff.mp h).1 rfl
  · intro a b hab hba
    obtain ⟨hbin, hvma, hsize⟩ := sizeMismatch_iff.mp hba
    exact hab (sizeMismatch_iff.mpr ⟨hbin.symm, hvma.symm, hsize.symm⟩)

theorem mem_byName {n : List Char} {secs : List Section} :
    (n, secs) ∈ byName l ↔ (∃ a ∈ l, a.name = n) ∧ secs = l.filter (fun s => s.name = n) := by
  simp only [byName, List.mem_map, List.mem_eraseDups, Prod.mk.injEq]
  constructor
  · rintro ⟨n', hn', rfl, rfl⟩
    exact ⟨hn', rfl⟩
  · rintro ⟨hn, rfl⟩
    exact ⟨n, hn, rfl, rfl⟩

/-- The grouping by name compares all sections of one name. -/
theorem check_shared_section_sizes_eq_false : check_shared_section_sizes l = false ↔
    ∀ a ∈ l, ∀ b ∈ l, a.name ≠ ".reserved".toList → a.name = b.name →
      ¬ sizeMismatch a b = true := by
  rw [check_shared_section_sizes, List.any_eq_false]
  constructor
  · intro h a ha b hb hreserved hname
    have ha' : a ∈ l.filter (fun s => s.name ≠ ".reserved".toList) :=
      List.mem_filter.mpr ⟨ha, decide_eq_true hreserved⟩
    have hb' : b ∈ l.filter (fun s => s.name ≠ ".reserved".toList) :=
      List.mem_filter.mpr ⟨hb, decide_eq_true (hname ▸ hreserved)⟩
    have hgroup := h (a.name, _) (mem_byName.mpr ⟨⟨a, ha', rfl⟩, rfl⟩)
    rw [Bool.not_eq_true, combinations_any_eq_false] at hgroup
    exact hgroup a (List.mem_filter.mpr ⟨ha', decide_eq_true rfl⟩) b
      (List.mem_filter.mpr ⟨hb', decide_eq_true hname.symm⟩)
  · rintro h ⟨n, secs⟩ hgroup
    obtain ⟨-, rfl⟩ := mem_byName.mp hgroup
    rw [Bool.not_eq_true, combinations_any_eq_false]
    intro a ha b hb
    simp only [List.mem_filter, decide_eq_true_eq] at ha hb
    exact h a ha.1.1 b hb.1.1 ha.1.2 (ha.2.trans hb.2.symm)

end checks

/-! ## Section 5: The verdict -/

/-- The listing of one binary, at its path; it may not exist. -/
structure SectionsFile where
  path : List Char
  lines : Option (List SectionLine)

def SectionsFile.listing (f : SectionsFile) : List Char × Option (List Char) :=
  (f.path, f.lines.map (text SectionLine.chars))

/-- The sections of a listing with a VMA other than zero. -/
def SectionsFile.sections (f : SectionsFile) : List Section :=
  (f.lines.getD []).filterMap (SectionLine.toSection (binaryName f.path))

/-- Some byte is loaded for both sections. -/
def ShareLoadByte (a b : Section) : Prop :=
  ∃ addr, (a.lma_start ≤ addr ∧ addr < a.lma_end) ∧ (b.lma_start ≤ addr ∧ addr < b.lma_end)

/-- The intentionally shared section. -/
def SharedCommon (a b : Section) : Prop :=
  a.name = ".common".toList ∧ b.name = ".common".toList ∧ a.vma_start = b.vma_start

/-- Loaded sections of two files collide. -/
def Collision (f g : SectionsFile) (a b : Section) : Prop :=
  a ∈ f.sections ∧ b ∈ g.sections ∧ isLoaded a = true ∧ isLoaded b = true ∧
    ShareLoadByte a b ∧ ¬ SharedCommon a b

/-- A clean layout: no two files, each of a binary of its own, collide. -/
def Clean (files : List SectionsFile) : Prop :=
  files.Pairwise (fun f g => ∀ a b, ¬ Collision f g a b)

/-- A collision that the checks exempt: the files' names or the sections'
    names and VMAs are the same. -/
def ExemptCollision (files : List SectionsFile) : Prop :=
  ¬ files.Pairwise (fun f g => ∀ a b, Collision f g a b →
    binaryName f.path ≠ binaryName g.path ∧ ¬ (a.name = b.name ∧ a.vma_start = b.vma_start))

/-- When a clean verdict means a clean layout: no collision is exempt, or
    another defect of the layout is reported anyway. -/
def HoldsWhen (files : List SectionsFile) : Prop :=
  ExemptCollision files → ∃ f ∈ files, ∃ g ∈ files, ∃ a ∈ f.sections, ∃ b ∈ g.sections, Reported a b

section verdict
variable {files : List SectionsFile}

theorem parse_listing (f : SectionsFile) :
    parse_sections_file f.listing.2 (binaryName f.listing.1) = f.sections := by
  unfold SectionsFile.listing SectionsFile.sections
  cases f.lines with
  | none => rfl
  | some ls => exact parse_sections_file_text ls _

theorem binary_eq {f : SectionsFile} {a : Section} (ha : a ∈ f.sections) :
    a.binary = binaryName f.path := by
  obtain ⟨l, -, hl⟩ := List.mem_filterMap.mp ha
  unfold SectionLine.toSection at hl
  simp only at hl
  split at hl
  · cases hl
  · cases hl
    rfl

/-- The checks of `main` are quiet if and only if no pair is reported. -/
theorem checks_eq_false {sorted : List Section}
    (hsorted : sorted.Pairwise (fun a b => sortKey a ≤ sortKey b)) :
    (check_overlaps .VMA (sorted.filter isLoaded) || check_overlaps .LMA (sorted.filter isLoaded) ||
      check_shared_section_sizes sorted) = false ↔
    ∀ a ∈ sorted, ∀ b ∈ sorted, ¬ Reported a b := by
  rw [Bool.or_eq_false_iff, Bool.or_eq_false_iff, check_overlaps_vma (hsorted.filter isLoaded),
    check_overlaps_lma, check_shared_section_sizes_eq_false]
  simp only [List.mem_filter]
  constructor
  · rintro ⟨⟨hvma, hlma⟩, hsize⟩ a ha b hb hreported
    cases hreported with
    | vma hla hlb hclash halias => exact halias (hvma a ⟨ha, hla⟩ b ⟨hb, hlb⟩ hclash)
    | lma hla hlb hclash => exact hlma a ⟨ha, hla⟩ b ⟨hb, hlb⟩ hclash
    | size hreserved hname hbin hstart hneq =>
      exact hsize a ha b hb hreserved hname (sizeMismatch_iff.mpr ⟨hbin, hstart, hneq⟩)
  · intro h
    refine ⟨⟨?_, ?_⟩, ?_⟩
    · rintro a ⟨ha, hla⟩ b ⟨hb, hlb⟩ hclash
      by_contra halias
      exact h a ha b hb (.vma hla hlb hclash halias)
    · rintro a ⟨ha, hla⟩ b ⟨hb, hlb⟩ hclash
      exact h a ha b hb (.lma hla hlb hclash)
    · intro a ha b hb hreserved hname hmismatch
      obtain ⟨hbin, hstart, hneq⟩ := sizeMismatch_iff.mp hmismatch
      exact h a ha b hb (.size hreserved hname hbin hstart hneq)

theorem sorted_mergeSort (all : List Section) :
    (all.mergeSort (fun a b => decide (sortKey a ≤ sortKey b))).Pairwise
      (fun a b => sortKey a ≤ sortKey b) := by
  have h : (all.mergeSort (fun a b => decide (sortKey a ≤ sortKey b))).Pairwise
      (fun a b => decide (sortKey a ≤ sortKey b) = true) := by
    apply List.pairwise_mergeSort
    · intro a b c hab hbc
      simp only [decide_eq_true_eq] at hab hbc ⊢
      exact hab.trans hbc
    · intro a b
      simpa using le_total (sortKey a) (sortKey b)
  simpa using h

/-- The checker returns zero if and only if it has nothing to report. -/
theorem main_eq_zero_iff : main (files.map SectionsFile.listing) = 0 ↔
    ∀ f ∈ files, ∀ g ∈ files, ∀ a ∈ f.sections, ∀ b ∈ g.sections, ¬ Reported a b := by
  have hall : (files.map SectionsFile.listing).flatMap
      (fun f => parse_sections_file f.2 (binaryName f.1)) =
      files.flatMap SectionsFile.sections := by
    rw [List.flatMap_map]
    exact congrArg (List.flatMap · files) (funext parse_listing)
  have hmem : (∀ f ∈ files, ∀ g ∈ files, ∀ a ∈ f.sections, ∀ b ∈ g.sections, ¬ Reported a b) ↔
      ∀ a ∈ files.flatMap SectionsFile.sections, ∀ b ∈ files.flatMap SectionsFile.sections,
        ¬ Reported a b := by
    simp only [List.mem_flatMap]
    constructor
    · rintro h a ⟨f, hf, ha⟩ b ⟨g, hg, hb⟩
      exact h f hf g hg a ha b hb
    · intro h f hf g hg a ha b hb
      exact h a ⟨f, hf, ha⟩ b ⟨g, hg, hb⟩
  rw [hmem]
  -- sorting keeps the members
  have hchecks := checks_eq_false (sorted_mergeSort (files.flatMap SectionsFile.sections))
  simp only [List.mem_mergeSort] at hchecks
  rw [← hchecks, main, hall]
  split
  · rename_i hempty
    rw [hempty, List.mergeSort_nil]
    decide
  · simp only
    split
    · rename_i hfound
      rw [hfound]
      decide
    · rename_i hquiet
      rw [Bool.not_eq_true] at hquiet
      rw [hquiet]
      decide

/-- A collision that is not exempt is reported as an overlap of load
    addresses. -/
theorem reported_of_collision {f g : SectionsFile} {a b : Section} (h : Collision f g a b)
    (hbin : binaryName f.path ≠ binaryName g.path)
    (hname : ¬ (a.name = b.name ∧ a.vma_start = b.vma_start)) : Reported a b := by
  obtain ⟨ha, hb, hla, hlb, ⟨addr, hin, hin'⟩, -⟩ := h
  refine .lma hla hlb ⟨?_, ?_, ?_⟩
  · rintro (heq | heq)
    · rw [binary_eq ha, binary_eq hb] at heq
      exact hbin heq
    · exact hname heq
  · show a.lma_start < b.lma_end
    omega
  · show b.lma_start < a.lma_end
    omega

end verdict

/-- The verdict of the checker is sound if and only if no collision is
    exempt from the comparison or another defect gives it away. -/
theorem main_sound_iff (files : List SectionsFile) :
    (main (files.map SectionsFile.listing) = 0 → Clean files) ↔ HoldsWhen files := by
  constructor
  · intro hsound hexempt
    by_contra hno
    -- with nothing reported the verdict is zero, and the layout is not clean
    have hzero : main (files.map SectionsFile.listing) = 0 :=
      main_eq_zero_iff.mpr (fun f hf g hg a ha b hb hrep => hno ⟨f, hf, g, hg, a, ha, b, hb, hrep⟩)
    apply hexempt
    exact (hsound hzero).imp (fun hclean a b hcol => absurd hcol (hclean a b))
  · intro hcond hzero
    have hquiet := main_eq_zero_iff.mp hzero
    -- either another report contradicts the verdict, or every collision is
    -- one the checks see
    by_cases hexempt : ExemptCollision files
    · obtain ⟨f, hf, g, hg, a, ha, b, hb, hrep⟩ := hcond hexempt
      exact absurd hrep (hquiet f hf g hg a ha b hb)
    · refine List.Pairwise.imp_of_mem ?_ (not_not.mp hexempt)
      intro f g hf hg hseen a b hcol
      obtain ⟨hbin, hname⟩ := hseen a b hcol
      exact hquiet f hf g hg a hcol.1 b hcol.2.1 (reported_of_collision hcol hbin hname)

/-- `  7 .cdata 00000020 18000000 48002000 DATA` -/
def cdataLine : SectionLine where
  indent := ⟨"  ".toList, by decide, by decide⟩
  idx := ⟨"7".toList, by decide, by decide⟩
  gap₁ := ⟨" ".toList, by decide, by decide⟩
  name := ⟨".cdata".toList, by decide, by decide⟩
  gap₂ := ⟨" ".toList, by decide, by decide⟩
  size := ⟨"00000020".toList, by decide, by decide⟩
  gap₃ := ⟨" ".toList, by decide, by decide⟩
  vma := ⟨"18000000".toList, by decide, by decide⟩
  gap₄ := ⟨" ".toList, by decide, by decide⟩
  lma := some (⟨"48002000".toList, by decide, by decide⟩, ⟨" ".toList, by decide, by decide⟩)
  type := ⟨"DATA".toList, by decide, by decide⟩

/-- Two devices whose `.cdata` are loaded at the same address. -/
def cdataFiles : List SectionsFile :=
  [{ path := "device1.sections".toList, lines := some [cdataLine] },
    { path := "device2.sections".toList, lines := some [cdataLine] }]

def cdataSection (binary : List Char) : Section where
  binary := binary
  name := ".cdata".toList
  vma_start := 0x18000000
  vma_end := 0x18000020
  lma_start := 0x48002000
  lma_end := 0x48002020
  sec_type := "DATA".toList

/-- The checker calls a layout clean in which `.cdata` of two devices is
    loaded at one address: name and VMA agree, and so do the sizes. -/
theorem cdataFiles_not_clean :
    main (cdataFiles.map SectionsFile.listing) = 0 ∧ ¬ Clean cdataFiles := by
  have hsections : cdataFiles.map SectionsFile.sections =
      [[cdataSection "device1".toList], [cdataSection "device2".toList]] := by decide
  have hone : ∀ f ∈ cdataFiles, ∀ a ∈ f.sections, ∃ binary, a = cdataSection binary := by
    intro f hf a ha
    have hmem := List.mem_map_of_mem (f := SectionsFile.sections) hf
    rw [hsections, List.mem_cons, List.mem_singleton] at hmem
    rcases hmem with heq | heq <;> rw [heq, List.mem_singleton] at ha <;> exact ⟨_, ha⟩
  constructor
  · refine main_eq_zero_iff.mpr ?_
    intro f hf g hg a ha b hb hreported
    obtain ⟨x, rfl⟩ := hone f hf a ha
    obtain ⟨y, rfl⟩ := hone g hg b hb
    -- same name and VMA: both checks exempt the pair, and the sizes agree
    cases hreported with
    | vma _ _ hclash _ => exact hclash.1 (.inr ⟨rfl, rfl⟩)
    | lma _ _ hclash => exact hclash.1 (.inr ⟨rfl, rfl⟩)
    | size _ _ _ _ hsize => exact hsize rfl
  · intro hclean
    rw [Clean, cdataFiles, List.pairwise_pair] at hclean
    refine hclean (cdataSection "device1".toList) (cdataSection "device2".toList)
      ⟨by decide, by decide, by decide, by decide, ⟨0x48002000, by decide, by decide⟩, ?_⟩
    rintro ⟨hname, -⟩
    exact absurd hname (by decide)

end CheckSectionOverlaps
