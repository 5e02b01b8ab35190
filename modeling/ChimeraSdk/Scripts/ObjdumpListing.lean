import ChimeraSdk.Framework.Digits
import ChimeraSdk.Scripts.CheckSectionOverlaps

/-! # Long Listings

    `llvm-objdump -h` right-aligns the index of a section in a field of
    three columns.  From index 100 on the field is full and the line no
    longer begins with white space, which `_SECTION_RE` asks for. -/

open Regex Digits

namespace CheckSectionOverlaps

/-! ## Section 1: A listing as it is printed -/

/-- A section with the gaps and the widths of its line. -/
structure ListedSection where
  name : Token isNonSpace
  size : Nat
  vma : Nat
  lma : Option Nat
  type : Token isUpper
  gap₁ : Token isBlank
  gap₂ : Token isBlank
  gap₃ : Token isBlank
  gap₄ : Token isBlank
  gap₅ : Token isBlank
  sizeWidth : Nat
  addrWidth : Nat

theorem isHex_digitChar : ∀ d < 16, isHex (Nat.digitChar d) = true := by decide

theorem isDigit_digitChar : ∀ d < 10, isDigit (Nat.digitChar d) = true := by decide

theorem hexDigit_digitChar : ∀ d < 16, hexDigit (Nat.digitChar d) = d := by decide

theorem hexWord_ne (width n : Nat) : padded '0' width (Nat.toDigits 16 n) ≠ [] :=
  padded_ne_nil Nat.toDigits_ne_nil

theorem hexWord_all (width n : Nat) :
    (padded '0' width (Nat.toDigits 16 n)).all isHex = true := by
  rw [List.all_eq_true]
  exact forall_mem_padded (by decide)
    (forall_mem_toDigits (P := fun c => isHex c = true) (by decide) isHex_digitChar n) width

/-- `%0*x` -/
def hexWord (width n : Nat) : Token isHex where
  chars := padded '0' width (Nat.toDigits 16 n)
  ne := hexWord_ne width n
  all := hexWord_all width n

/-- The parser reads a hexadecimal number back. -/
theorem int16_hexWord (width n : Nat) : int16 (hexWord width n).chars = n := by
  show (padded '0' width (Nat.toDigits 16 n)).foldl (fun n c => 16 * n + hexDigit c) 0 = n
  rw [foldl_padded (by decide), foldl_toDigits (by decide) hexDigit_digitChar]

/-- The field of the index, `%3d`. -/
def indexField (i : Nat) : List Char := padded ' ' 3 (Nat.toDigits 10 i)

/-- A line behind its index. -/
def ListedSection.behindIndex (s : ListedSection) : List Char :=
  s.gap₁.chars ++ (s.name.chars ++ (s.gap₂.chars ++ ((hexWord s.sizeWidth s.size).chars ++
    (s.gap₃.chars ++ ((hexWord s.addrWidth s.vma).chars ++ (s.gap₄.chars ++
      ((match s.lma with
        | none => []
        | some lma => (hexWord s.addrWidth lma).chars ++ s.gap₅.chars) ++ s.type.chars)))))))

/-- The lines of the sections from index `i` on. -/
def listing : Nat → List ListedSection → List Char
  | _, [] => []
  | i, s :: ss => indexField i ++ s.behindIndex ++ '\n' :: listing (i + 1) ss

/-- The section of a binary that a line stands for. -/
def ListedSection.toSection (binary_name : List Char) (s : ListedSection) : Section where
  binary := binary_name
  name := s.name.chars
  vma_start := s.vma
  vma_end := s.vma + s.size
  lma_start := s.lma.getD s.vma
  lma_end := s.lma.getD s.vma + s.size
  sec_type := s.type.chars

/-- The sections that the parser is to return. -/
def listedSections (binary_name : List Char) (ss : List ListedSection) : List Section :=
  (ss.filter (fun s => s.vma ≠ 0)).map (ListedSection.toSection binary_name)

/-! ## Section 2: Lines with an index below 100 -/

theorem index_ne (i : Nat) : Nat.toDigits 10 i ≠ [] := Nat.toDigits_ne_nil

theorem index_all (i : Nat) : (Nat.toDigits 10 i).all isDigit = true := by
  rw [List.all_eq_true]
  exact forall_mem_toDigits (P := fun c => isDigit c = true) (by decide) isDigit_digitChar i

def indexToken (i : Nat) : Token isDigit where
  chars := Nat.toDigits 10 i
  ne := index_ne i
  all := index_all i

def indexIndent (i : Nat) : List Char := List.replicate (3 - (Nat.toDigits 10 i).length) ' '

theorem isBlank_of_mem_indent {i : Nat} {c : Char} (h : c ∈ indexIndent i) : isBlank c = true := by
  rw [List.eq_of_mem_replicate h]
  decide

theorem indexIndent_ne {i : Nat} (hi : i < 100) : indexIndent i ≠ [] := by
  have hlen : (Nat.toDigits 10 i).length ≤ 2 :=
    (Nat.length_toDigits_le_iff (by decide) (by decide)).mpr hi
  intro hnil
  have hzero := congrArg List.length hnil
  rw [indexIndent, List.length_replicate, List.length_nil] at hzero
  omega

theorem indexIndent_eq_nil {i : Nat} (hi : 100 ≤ i) : indexIndent i = [] := by
  have hlen : ¬ (Nat.toDigits 10 i).length ≤ 2 := by
    rw [Nat.length_toDigits_le_iff (by decide) (by decide)]
    exact Nat.not_lt.mpr hi
  rw [indexIndent, Nat.sub_eq_zero_of_le (by omega), List.replicate_zero]

theorem indexIndent_all (i : Nat) : (indexIndent i).all isBlank = true :=
  List.all_eq_true.mpr fun _ => isBlank_of_mem_indent

/-- The line of a section, as the format documents it. -/
def ListedSection.toLine (s : ListedSection) {i : Nat} (hi : i < 100) : SectionLine where
  indent := { chars := indexIndent i, ne := indexIndent_ne hi, all := indexIndent_all i }
  idx := indexToken i
  gap₁ := s.gap₁
  name := s.name
  gap₂ := s.gap₂
  size := hexWord s.sizeWidth s.size
  gap₃ := s.gap₃
  vma := hexWord s.addrWidth s.vma
  gap₄ := s.gap₄
  lma := s.lma.map fun lma => (hexWord s.addrWidth lma, s.gap₅)
  type := s.type

variable {binary_name : List Char} {s : ListedSection} {ss : List ListedSection} {i : Nat}

theorem toLine_chars (hi : i < 100) :
    (s.toLine hi).chars = indexField i ++ s.behindIndex := by
  unfold SectionLine.chars ListedSection.behindIndex SectionLine.lmaChars indexField padded
  rw [List.append_assoc]
  cases hlma : s.lma with
  | none => simp [ListedSection.toLine, hlma, indexIndent, indexToken]
  | some lma => simp [ListedSection.toLine, hlma, indexIndent, indexToken]

theorem toLine_toSection (hi : i < 100) : (s.toLine hi).toSection binary_name =
    if s.vma = 0 then none else some (s.toSection binary_name) := by
  unfold SectionLine.toSection
  cases hlma : s.lma with
  | none => simp [ListedSection.toLine, ListedSection.toSection, int16_hexWord, hlma]
  | some lma => simp [ListedSection.toLine, ListedSection.toSection, int16_hexWord, hlma]

/-! ## Section 3: Lines with an index from 100 on -/

theorem noTypeAhead_listing : NoTypeAhead (listing i ss) := by
  cases ss with
  | nil => exact noTypeAhead_nil
  | cons s ss =>
    show NoTypeAhead (indexIndent i ++ Nat.toDigits 10 i ++ s.behindIndex ++ _)
    rw [List.append_assoc, List.append_assoc]
    exact noTypeAhead_index (fun _ => isBlank_of_mem_indent) (indexToken i)

theorem Token.ne_newline {p : Char → Bool} (w : Token p) (h : p '\n' = false) :
    ∀ c ∈ w.chars, c ≠ '\n' := by
  rintro c hc rfl
  rw [w.mem _ hc] at h
  cases h

/-- No part of a line is a line feed. -/
theorem line_ne_newline (s : ListedSection) (i : Nat) :
    ∀ c ∈ indexField i ++ s.behindIndex, c ≠ '\n' := by
  unfold ListedSection.behindIndex
  simp only [List.forall_mem_append]
  refine ⟨forall_mem_padded (by decide) ((indexToken i).ne_newline rfl) 3, s.gap₁.ne_newline rfl,
    s.name.ne_newline rfl, s.gap₂.ne_newline rfl, (hexWord _ _).ne_newline rfl,
    s.gap₃.ne_newline rfl, (hexWord _ _).ne_newline rfl, s.gap₄.ne_newline rfl, ?_,
    s.type.ne_newline rfl⟩
  cases s.lma with
  | none => simp
  | some lma =>
    exact List.forall_mem_append.mpr ⟨(hexWord _ lma).ne_newline rfl, s.gap₅.ne_newline rfl⟩

/-- At a line without white space in front no match starts. -/
theorem matchAt_full_index (hi : 100 ≤ i) (before : Option Char) (rest : List Char) :
    matchAt SECTION_RE before (indexField i ++ rest) = none := by
  have hfield : indexField i = (indexToken i).chars := by
    show indexIndent i ++ _ = _
    rw [indexIndent_eq_nil hi]
    rfl
  unfold matchAt SECTION_RE
  by_cases h : before = none ∨ before = some '\n'
  · rw [run_seq, run_lineStart h, hfield]
    exact plusLoop_stops ((indexToken i).stops not_isSpace_of_isDigit)
  · simp [run, h]

/-! ## Section 4: What is found of a listing -/

theorem listedSections_cons : listedSections binary_name (s :: ss) =
    (if s.vma = 0 then none else some (s.toSection binary_name)).toList ++
      listedSections binary_name ss := by
  unfold listedSections
  by_cases hvma : s.vma = 0
  · simp [hvma]
  · simp [hvma]

/-- The matches, by induction on the lines: the first hundred lines are
    found, the others are passed over. -/
theorem finditer_listing {before : Option Char} (hbefore : before = none ∨ before = some '\n') :
    (finditer SECTION_RE before 0 (listing i ss)).filterMap (sectionOf binary_name) =
      listedSections binary_name (ss.take (100 - i)) := by
  induction ss generalizing i before with
  | nil => simp [listing, finditer, matchAt_nil, listedSections]
  | cons s ss ih =>
    -- the index leaves a blank in its field, or it does not
    by_cases hi : i < 100
    · obtain ⟨w, c, hline, hc⟩ := (s.toLine hi).chars_concat
      have hahead : NoTypeAhead (listing (i + 1) ss) := noTypeAhead_listing
      obtain ⟨last, hfound⟩ := matchAt_line (s.toLine hi) hahead before hbefore
      have htake : 100 - i = 100 - (i + 1) + 1 := by omega
      have hsection := sectionOf_captured binary_name (s.toLine hi)
      rw [toLine_toSection] at hsection
      rw [listing, ← toLine_chars hi, htake, List.take_succ_cons, listedSections_cons]
      rw [hline] at hfound ⊢
      rw [SECTION_RE, finditer_line hc hfound, List.filterMap_cons, hsection]
      have hrest := ih (i := i + 1) (.inr rfl)
      by_cases hvma : s.vma = 0
      · rw [if_pos hvma]
        exact hrest
      · rw [if_neg hvma]
        exact congrArg _ hrest
    · have hfull := matchAt_full_index (Nat.not_lt.mp hi) before
        (s.behindIndex ++ '\n' :: listing (i + 1) ss)
      rw [← List.append_assoc] at hfull
      have htake : 100 - i = 0 := by omega
      have hnext : 100 - (i + 1) = 0 := by omega
      have hrest := ih (i := i + 1) (.inr rfl)
      rw [hnext, List.take_zero] at hrest
      rw [listing, SECTION_RE, finditer_no_line (line_ne_newline s i) hfull, htake, List.take_zero]
      exact hrest

theorem parse_listing_take (binary_name : List Char) (ss : List ListedSection) :
    parse_sections_file (some (listing 0 ss)) binary_name =
      listedSections binary_name (ss.take 100) :=
  finditer_listing (.inl rfl)

/-- **Nothing is dropped** if and only if the sections from index 100 on
    are among those that are skipped anyway. -/
theorem parse_listing_iff (binary_name : List Char) (ss : List ListedSection) :
    parse_sections_file (some (listing 0 ss)) binary_name = listedSections binary_name ss ↔
      ∀ s ∈ ss.drop 100, s.vma = 0 := by
  have hsplit : listedSections binary_name ss =
      listedSections binary_name (ss.take 100) ++ listedSections binary_name (ss.drop 100) := by
    rw [listedSections, ← List.take_append_drop 100 ss, List.filter_append, List.map_append,
      List.take_append_drop]
    rfl
  rw [parse_listing_take, hsplit, List.self_eq_append_right, listedSections, List.map_eq_nil_iff,
    List.filter_eq_nil_iff]
  constructor
  · intro h s hs
    have hnot := h s hs
    simpa using hnot
  · intro h s hs
    simp [h s hs]

/-- `.text 00000010 80000000 TEXT` -/
def textSection : ListedSection where
  name := { chars := ".text".toList, ne := by decide, all := by decide }
  size := 0x10
  vma := 0x80000000
  lma := none
  type := { chars := "TEXT".toList, ne := by decide, all := by decide }
  gap₁ := oneBlank
  gap₂ := oneBlank
  gap₃ := oneBlank
  gap₄ := oneBlank
  gap₅ := oneBlank
  sizeWidth := 8
  addrWidth := 8

/-- Of 101 sections the last one is lost. -/
theorem section_100_dropped :
    indexField 100 ++ textSection.behindIndex = "100 .text 00000010 80000000 TEXT".toList ∧
    parse_sections_file (some (listing 0 (List.replicate 101 textSection))) "host".toList =
      List.replicate 100 (textSection.toSection "host".toList) ∧
    listedSections "host".toList (List.replicate 101 textSection) =
      List.replicate 101 (textSection.toSection "host".toList) := by
  have hvma : textSection.vma ≠ 0 := by decide
  have hall : ∀ n, listedSections "host".toList (List.replicate n textSection) =
      List.replicate n (textSection.toSection "host".toList) := by
    intro n
    rw [listedSections, List.filter_eq_self.mpr, List.map_replicate]
    intro s hs
    rw [List.eq_of_mem_replicate hs]
    exact decide_eq_true hvma
  refine ⟨by decide, ?_, hall 101⟩
  rw [parse_listing_take, List.take_replicate, hall]
  rfl

end CheckSectionOverlaps
