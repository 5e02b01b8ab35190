import ChimeraSdk.Scripts.TestVectorText

/-! # Test-Vector Files Are Read Back

    `parse_c_arrays` returns the arrays that `emit_ita_file` has written,
    under their names.  It returns them as arrays of `np.int64`, so the
    values have to be in the range of that type. -/

open Regex
open CheckSectionOverlaps (isSpace isDigit Token)

namespace GenerateTestVectors

variable {before : Option Char} {u : List Char}

/-! ## Section 1: Written arrays -/

/-- An array in a file, with what numpy has printed for it. -/
structure Written where
  decl : Declaration
  values : List Int
  ne : values ≠ []
  inner : List Char
  printed : Printed values inner

namespace Written

def name (a : Written) : List Char := a.decl.name.chars

def chars (a : Written) : List Char := declaration a.decl a.values.length a.inner

/-- The text behind the opening brace. -/
def behind (a : Written) : List Char := body a.decl a.inner ++ "\x7d;\n".toList

/-- The match at an array in front of the rest of a file. -/
def found (a : Written) (rest : List Char) : Match where
  matched := opening a.decl a.values.length
  rest := a.behind ++ rest
  groups := captured a.decl

theorem chars_eq (a : Written) :
    a.chars = lead a.decl ++ (opening a.decl a.values.length ++ a.behind) :=
  declaration_eq a.decl a.values.length a.inner

theorem initialiser_found (a : Written) (rest : List Char) :
    initialiser (a.found rest) = body a.decl a.inner := by
  have hclose : a.behind ++ rest = body a.decl a.inner ++ '\x7d' :: (";\n".toList ++ rest) := by
    simp [behind]
  show (scanBraces 1 (a.behind ++ rest)).dropLast = _
  rw [hclose, scanBraces_body a.printed, List.dropLast_concat]

/-- What one turn of the reader's loop does with an array. -/
theorem readArray_found (int64Array : List Int → Except Error (List Int)) (a : Written) (out : Dict)
    (rest : List Char) : readArray int64Array out (a.found rest) =
      (int64Array a.values).map (fun v => setItem a.name v out) := by
  unfold readArray
  rw [initialiser_found, numbers_body a.printed, if_neg a.ne]
  rfl

theorem not_mem_opening {d : Declaration} {size : Nat} {c : Char} (hword : isWord c = false)
    (hdims : ¬ (isDigit c = true ∨ c = '[' ∨ c = ']')) (hequals : c ∉ " = \x7b".toList) :
    c ∉ opening d size := by
  unfold opening
  rw [List.mem_append, List.mem_append]
  rintro (hmem | hmem | hmem)
  · exact not_mem_name hword hmem
  · exact hdims (mem_dims hmem)
  · exact hequals hmem

theorem not_mem_behind (a : Written) {c : Char}
    (hc : ¬ (isDigit c = true ∨ c = '-' ∨ c = ',' ∨ c = ' ')) (hb : c ∉ "\n\x7b\n".toList)
    (hb' : c ∉ "\n\x7d\n".toList) (hend : c ∉ "\x7d;\n".toList) : c ∉ a.behind := by
  unfold behind
  rw [List.mem_append]
  rintro (hmem | hmem)
  · exact not_mem_body a.printed hc hb hb' hmem
  · exact hend hmem

/-- No comment starts in an array. -/
theorem no_slash (a : Written) : '/' ∉ a.chars := by
  rw [chars_eq]
  unfold lead
  rw [List.mem_append, List.mem_append, List.mem_append, List.mem_append]
  rintro ((hmem | hmem | hmem) | hmem | hmem)
  · exact absurd hmem (by decide)
  · exact a.decl.ctype.no_slash hmem
  · exact absurd hmem (by decide)
  · exact not_mem_opening (by decide) (by decide) (by decide) hmem
  · exact a.not_mem_behind (by decide) (by decide) (by decide) (by decide) hmem

theorem no_bracket (a : Written) : '[' ∉ a.behind :=
  a.not_mem_behind (by decide) (by decide) (by decide) (by decide)

end Written

/-- The arrays of a file behind its header, without the comment at the
    end. -/
def declarations (as : List Written) : List Char := (as.map Written.chars).flatten ++ ['\n']

/-- The matches at the arrays of a file. -/
def foundIn : List Written → List Match
  | [] => []
  | a :: as => a.found (declarations as) :: foundIn as

theorem stops_name {d : Declaration} {p : Char → Bool} {rest : List Char} {size : Nat}
    (h : ∀ {c}, isWord c = true → p c = false) : Stops p (opening d size ++ rest) := by
  unfold opening
  rw [List.append_assoc]
  exact d.name.stops h

/-- **Finding the arrays**: behind a text without an opening bracket, the
    matches are the arrays, in their order and as they were written. -/
theorem matchesFrom_declarations (as : List Written) (hu : '[' ∉ u) :
    matchesFrom ARRAY before (u ++ declarations as) = foundIn as := by
  induction as generalizing before u with
  | nil =>
    have hend : matchesFrom ARRAY before (u ++ ['\n'] ++ []) = matchesFrom ARRAY (some '\n') [] :=
      initialisers_pass hu (by decide) (by decide) stops_nil stops_nil
    rw [List.append_nil] at hend
    exact hend
  | cons a as ih =>
    have htext : u ++ declarations (a :: as) = u ++
        ("const ".toList ++ a.decl.ctype.chars) ++ [' '] ++
        (opening a.decl a.values.length ++ (a.behind ++ declarations as)) := by
      unfold declarations
      rw [List.map_cons, List.flatten_cons, Written.chars_eq]
      unfold lead
      simp only [List.append_assoc]
    have hlead : '[' ∉ u ++ ("const ".toList ++ a.decl.ctype.chars) := by
      rw [List.mem_append, List.mem_append]
      rintro (hmem | hmem | hmem)
      · exact hu hmem
      · exact absurd hmem (by decide)
      · exact a.decl.ctype.no_bracket hmem
    have hne : opening a.decl a.values.length ≠ [] :=
      List.append_ne_nil_of_left_ne_nil a.decl.name.ne _
    have hspace : ∀ {rest}, Stops isSpace (opening a.decl a.values.length ++ rest) :=
      stops_name not_isSpace_of_isWord
    have hbracket : ∀ {rest}, Stops (· == '[') (opening a.decl a.values.length ++ rest) := by
      intro rest
      apply stops_name
      intro c hc
      apply beq_false_of_ne
      rintro rfl
      exact absurd hc (by decide)
    -- the scan reaches the name and goes on behind the opening brace
    obtain ⟨last, hmatch⟩ := matchAt_opening (some ' ') a.decl a.values.length
      (a.behind ++ declarations as)
    rw [htext, initialisers_pass hlead (by decide) (by decide) hspace hbracket,
      matchesFrom_found hne hmatch, ih a.no_bracket]
    rfl

theorem foldlM_foundIn (int64Array : List Int → Except Error (List Int)) (as : List Written)
    (out : Dict) : (foundIn as).foldlM (readArray int64Array) out =
      as.foldlM (fun out a => (int64Array a.values).map (fun v => setItem a.name v out)) out := by
  induction as generalizing out with
  | nil => rfl
  | cons a as ih =>
    rw [foundIn, List.foldlM_cons, List.foldlM_cons, a.readArray_found]
    exact congrArg _ (funext ih)

/-! ## Section 2: Files -/

section file
variable (preamble : List CommentLine) (shape : Int × Int × Int) (as : List Written)

/-- A file of the emitter. -/
def fileText : List Char :=
  HEADER preamble shape ++ ((as.map Written.chars).flatten ++ comment " clang-format on".toList)

theorem notMem_toList {c : Char} {text : List Char} (h : c ∉ text) :
    c ∉ (String.ofList text).toList := by
  rwa [String.toList_ofList]

/-- The comment at the top of a file is a comment. -/
theorem newline_notMem_headerLines : ∀ line ∈ headerLines preamble shape, '\n' ∉ line := by
  have hdecimal : ∀ v, '\n' ∉ decimal v := fun v hmem => absurd (mem_decimal hmem) (by decide)
  intro line hline
  rcases List.mem_append.mp hline with hline | hline
  · obtain ⟨l, -, rfl⟩ := List.mem_map.mp hline
    exact l.no_newline
  · simp only [List.mem_cons, List.not_mem_nil, or_false] at hline
    rcases hline with rfl | rfl | rfl | rfl | rfl
    · exact List.not_mem_nil
    · exact notMem_toList (by decide)
    · exact notMem_toList (by decide)
    · simp only [List.mem_append, hdecimal, false_or, not_or]
      exact ⟨notMem_toList (by decide), notMem_toList (by decide), notMem_toList (by decide),
        notMem_toList (by decide)⟩
    · exact notMem_toList (by decide)

/-- What stands in front of the arrays when the comments are stripped. -/
def strippedHeader : List Char :=
  List.replicate (headerLines preamble shape).length '\n' ++
    ("\n#include \"ITA_mem.h\"\n\n".toList ++ ['\n'])

theorem strips_fileText :
    Strips (fileText preamble shape as) (strippedHeader preamble shape ++ declarations as) := by
  have hslash : '/' ∉ (as.map Written.chars).flatten := by
    intro hmem
    obtain ⟨w, hw, hc⟩ := List.mem_flatten.mp hmem
    obtain ⟨a, -, rfl⟩ := List.mem_map.mp hw
    exact a.no_slash hc
  have hend : Strips (comment " clang-format on".toList) ['\n'] := by
    have hlast := strips_nil.comment (show '\n' ∉ " clang-format on".toList by decide)
    rwa [List.append_nil] at hlast
  have hoff : '\n' ∉ " clang-format off".toList := by decide
  have hinclude : '/' ∉ "\n#include \"ITA_mem.h\"\n\n".toList := by decide
  unfold fileText HEADER strippedHeader
  simp only [List.append_assoc]
  apply Strips.comments (newline_notMem_headerLines preamble shape)
  apply Strips.pass hinclude
  apply Strips.comment hoff
  exact hend.pass hslash

theorem no_bracket_strippedHeader : '[' ∉ strippedHeader preamble shape := by
  unfold strippedHeader
  rw [List.mem_append]
  rintro (hmem | hmem)
  · exact absurd (List.eq_of_mem_replicate hmem) (by decide)
  · exact absurd hmem (by decide)

/-- **Reading a file**: the reader takes the arrays one by one. -/
theorem parse_fileText (int64Array : List Int → Except Error (List Int)) :
    parse_c_arrays int64Array (fileText preamble shape as) =
    as.foldlM (fun out a => (int64Array a.values).map (fun v => setItem a.name v out)) [] := by
  unfold parse_c_arrays sub allMatches
  rw [strips_fileText, matchesFrom_declarations as (no_bracket_strippedHeader preamble shape),
    foldlM_foundIn]

end file

/-! ## Section 3: The round trip -/

/-- A new key goes behind the others. -/
theorem setItem_of_not_mem {name : List Char} {values : List Int} {out : Dict}
    (h : name ∉ out.map Prod.fst) : setItem name values out = out ++ [(name, values)] := by
  induction out with
  | nil => rfl
  | cons p out ih =>
    rw [List.map_cons] at h
    obtain ⟨hne, hmem⟩ := List.ne_and_not_mem_of_not_mem_cons h
    show (if p.1 = name then (p.1, values) :: out else p :: setItem name values out) = _
    rw [if_neg (Ne.symm hne), ih hmem]
    rfl

/-- Arrays with different names, in the range of the type. -/
theorem foldlM_setItem {int64Array : List Int → Except Error (List Int)}
    (hconvert : ConvertsInt64 int64Array) {as : List Written} {out : Dict}
    (hfit : ∀ a ∈ as, ∀ v ∈ a.values, IsInt64 v)
    (hnodup : (out.map Prod.fst ++ as.map Written.name).Nodup) :
    as.foldlM (fun out a => (int64Array a.values).map (fun v => setItem a.name v out)) out =
      .ok (out ++ as.map (fun a => (a.name, a.values))) := by
  induction as generalizing out with
  | nil =>
    rw [List.map_nil, List.append_nil]
    rfl
  | cons a as ih =>
    obtain ⟨hvalues, hfit⟩ := List.forall_mem_cons.mp hfit
    have hnew : a.name ∉ out.map Prod.fst := by
      intro hmem
      exact (List.nodup_append.mp hnodup).2.2 _ hmem _ List.mem_cons_self rfl
    have hrest : ((out ++ [(a.name, a.values)]).map Prod.fst ++ as.map Written.name).Nodup := by
      rw [List.map_append, List.append_assoc]
      exact hnodup
    -- the name is new, so the array goes behind the others
    have hstep : (int64Array a.values).map (fun v => setItem a.name v out) =
        .ok (out ++ [(a.name, a.values)]) := by
      rw [hconvert.fit _ hvalues]
      exact congrArg Except.ok (setItem_of_not_mem hnew)
    rw [List.foldlM_cons, hstep]
    show as.foldlM _ (out ++ [(a.name, a.values)]) = _
    rw [ih hfit hrest, List.map_cons, List.append_assoc]
    rfl

/-- Under distinct keys, a pair of a dictionary is what its key looks up. -/
theorem lookup_of_mem {name : List Char} {values : List Int} {out : Dict}
    (hkeys : (out.map Prod.fst).Nodup) (hmem : (name, values) ∈ out) :
    out.lookup name = some values := by
  obtain ⟨l₁, l₂, rfl⟩ := List.append_of_mem hmem
  apply List.lookup_eq_some_iff.mpr
  refine ⟨l₁, l₂, rfl, ?_⟩
  intro p hp
  rw [List.map_append] at hkeys
  apply bne_iff_ne.mpr
  intro heq
  exact (List.nodup_append.mp hkeys).2.2 p.1 (List.mem_map_of_mem hp) name
    List.mem_cons_self heq.symm

/-- The reader returns, under the names of the specification and no other,
    the arrays that the emitter was given. -/
def RoundTrips (array2string : List Int → List Char)
    (int64Array : List Int → Except Error (List Int)) (preamble : List CommentLine) (arrays : Dict)
    (spec : List Declaration) (shape : Int × Int × Int) : Prop :=
  ∃ chars out, emit_ita_file array2string preamble arrays spec shape = .ok chars ∧
    parse_c_arrays int64Array chars = .ok out ∧
    out.map Prod.fst = spec.map (fun d => d.name.chars) ∧
    ∀ d ∈ spec, out.lookup d.name.chars = arrays.lookup d.name.chars

section roundtrip
variable {array2string : List Int → List Char} {int64Array : List Int → Except Error (List Int)}
  {arrays : Dict} {spec : List Declaration}

/-- What the emitter writes for a specification whose names all have an
    array. -/
theorem exists_written (hprint : PrintsDecimals array2string)
    (h : ∀ d ∈ spec, ∃ values, arrays.lookup d.name.chars = some values ∧ values ≠ []) :
    ∃ as : List Written, as.map Written.decl = spec ∧
      (∀ a ∈ as, arrays.lookup a.name = some a.values) ∧
      ∀ preamble shape, emit_ita_file array2string preamble arrays spec shape =
        .ok (fileText preamble shape as) := by
  suffices hbody : ∃ as : List Written, as.map Written.decl = spec ∧
      (∀ a ∈ as, arrays.lookup a.name = some a.values) ∧
      spec.mapM (fun d => do
        let v ← getItem arrays d.name.chars
        return declaration d v.length (format_array array2string v)) =
        Except.ok (as.map Written.chars) by
    obtain ⟨as, hspec, hlookup, heq⟩ := hbody
    refine ⟨as, hspec, hlookup, ?_⟩
    intro preamble shape
    unfold emit_ita_file
    rw [heq]
    rfl
  -- the body of the file, by induction on the specification
  induction spec with
  | nil => exact ⟨[], rfl, fun a ha => absurd ha List.not_mem_nil, rfl⟩
  | cons d spec ih =>
    obtain ⟨⟨values, hvalues, hne⟩, h⟩ := List.forall_mem_cons.mp h
    obtain ⟨as, hspec, hlookup, heq⟩ := ih h
    refine ⟨⟨d, values, hne, _, format_array_inner hprint hne⟩ :: as, ?_, ?_, ?_⟩
    · rw [List.map_cons, hspec]
    · exact List.forall_mem_cons.mpr ⟨hvalues, hlookup⟩
    · rw [List.mapM_cons, heq]
      unfold getItem
      rw [hvalues]
      rfl

/-- **The round trip**: for arrays in the range of `np.int64`, in any
    number and order, of any rank and for every shape. -/
theorem parse_emit_ita_file (hprint : PrintsDecimals array2string)
    (hconvert : ConvertsInt64 int64Array)
    (hnames : (spec.map (fun d => d.name.chars)).Nodup)
    (hassigned : ∀ d ∈ spec, ∃ values, arrays.lookup d.name.chars = some values ∧
      values ≠ [] ∧ ∀ v ∈ values, IsInt64 v)
    (preamble : List CommentLine) (shape : Int × Int × Int) :
    RoundTrips array2string int64Array preamble arrays spec shape := by
  obtain ⟨as, rfl, hlookup, hemit⟩ := exists_written hprint
    (fun d hd => (hassigned d hd).imp (fun _ hv => ⟨hv.1, hv.2.1⟩))
  have hfit : ∀ a ∈ as, ∀ v ∈ a.values, IsInt64 v := by
    intro a ha
    obtain ⟨values, hvalues, -, hrange⟩ := hassigned a.decl (List.mem_map_of_mem ha)
    obtain rfl := Option.some.inj ((hlookup a ha).symm.trans hvalues)
    exact hrange
  rw [List.map_map] at hnames
  have hkeys : (as.map (fun a => (a.name, a.values))).map Prod.fst = as.map Written.name := by
    rw [List.map_map]
    rfl
  refine ⟨fileText preamble shape as, as.map (fun a => (a.name, a.values)), hemit preamble shape,
    ?_, ?_, ?_⟩
  · rw [parse_fileText]
    exact foldlM_setItem hconvert hfit hnames
  · rw [hkeys, List.map_map]
    rfl
  · -- the keys are distinct, so each looks up its own array
    intro d hd
    obtain ⟨a, ha, rfl⟩ := List.mem_map.mp hd
    have hmem : (a.name, a.values) ∈ as.map (fun a => (a.name, a.values)) :=
      List.mem_map_of_mem ha
    show _ = arrays.lookup a.name
    rw [hlookup a ha]
    apply lookup_of_mem _ hmem
    rw [hkeys]
    exact hnames

end roundtrip

/-! ### Two files -/

/-- The widest number of an array. -/
def width (values : List Int) : Nat := (values.map (fun v => (decimal v).length)).foldr max 0

/-- numpy aligns the numbers of an array to the right. -/
def numpyString (values : List Int) : List Char :=
  '[' :: ([','].intercalate (values.map (fun v => Digits.padded ' ' (width values) (decimal v))) ++
    [']'])

theorem numpyString_printsDecimals : PrintsDecimals numpyString := by
  intro values hne
  refine ⟨_, ?_, rfl⟩
  generalize width values = k
  have hblanks : ∀ n, Blanks (List.replicate n ' ') := fun n c hc => List.eq_of_mem_replicate hc
  have hnone : Blanks [] := fun c hc => absurd hc List.not_mem_nil
  induction values with
  | nil => exact absurd rfl hne
  | cons v values ih =>
    by_cases hrest : values = []
    · subst hrest
      have hlast := Printed.last v (hblanks (k - (decimal v).length)) hnone
      rw [List.append_nil] at hlast
      rw [List.map_singleton, List.intercalate_singleton]
      exact hlast
    · have hmap : values.map (fun v => Digits.padded ' ' k (decimal v)) ≠ [] :=
        fun hnil => hrest (List.map_eq_nil_iff.mp hnil)
      have hmore := Printed.more v (hblanks (k - (decimal v).length)) hnone (ih hrest)
      rw [List.nil_append, ← List.append_assoc] at hmore
      rw [List.map_cons, List.intercalate_cons_of_ne_nil hmap, List.append_assoc]
      exact hmore

/-- numpy takes what fits into 64 bits. -/
def numpyInt64 (values : List Int) : Except Error (List Int) :=
  if ∀ v ∈ values, IsInt64 v then .ok values else .error .OverflowError

theorem numpyInt64_converts : ConvertsInt64 numpyInt64 :=
  ⟨fun _ h => if_pos h, fun _ h => if_neg h⟩

def cType (w : List Char) (hslash : '/' ∉ w) (hbracket : '[' ∉ w) : CType where
  chars := w
  no_slash := hslash
  no_bracket := hbracket

def arrayName (c : Char) (w : List Char) (hall : (c :: w).all isWord = true) : Token isWord where
  chars := c :: w
  ne := List.cons_ne_nil _ _
  all := hall

theorem no_slash_int8_t : '/' ∉ "int8_t".toList := by decide
theorem no_bracket_int8_t : '[' ∉ "int8_t".toList := by decide
theorem no_slash_uint64_t : '/' ∉ "uint64_t".toList := by decide
theorem no_bracket_uint64_t : '[' ∉ "uint64_t".toList := by decide

/-- `("int8_t", "input_q", 1)` -/
def input_q : Declaration where
  ctype := cType "int8_t".toList no_slash_int8_t no_bracket_int8_t
  name := arrayName 'i' "nput_q".toList rfl
  rank := 1

/-- `("int8_t", "input_Wq", 2)` -/
def input_Wq : Declaration where
  ctype := cType "int8_t".toList no_slash_int8_t no_bracket_int8_t
  name := arrayName 'i' "nput_Wq".toList rfl
  rank := 2

/-- `("uint64_t", "mask", 1)` -/
def mask : Declaration where
  ctype := cType "uint64_t".toList no_slash_uint64_t no_bracket_uint64_t
  name := arrayName 'm' "ask".toList rfl
  rank := 1

/-- Two arrays with negative values, out of order. -/
theorem input_roundTrips : RoundTrips numpyString numpyInt64 []
    [("input_Wq".toList, [-128]), ("input_q".toList, [1, -2, 100])] [input_q, input_Wq]
    (64, 64, 64) := by
  apply parse_emit_ita_file numpyString_printsDecimals numpyInt64_converts (by decide)
  intro d hd
  rcases List.mem_pair.mp hd with rfl | rfl
  · exact ⟨[1, -2, 100], rfl, by decide, by decide⟩
  · exact ⟨[-128], rfl, by decide, by decide⟩

/-- An array of `np.uint64` with a value of 2^63 is written but not read
    back. -/
theorem uint64_overflows :
    ¬ ∀ array2string int64Array, PrintsDecimals array2string → ConvertsInt64 int64Array →
      ∀ (spec : List Declaration) (arrays : Dict), (spec.map (fun d => d.name.chars)).Nodup →
      (∀ d ∈ spec, ∃ values, arrays.lookup d.name.chars = some values ∧ values ≠ []) →
      ∀ preamble shape, RoundTrips array2string int64Array preamble arrays spec shape := by
  intro hall
  have hassigned : ∀ d ∈ [mask], ∃ values,
      [("mask".toList, [(0x8000000000000000 : Int)])].lookup d.name.chars = some values ∧
        values ≠ [] := by
    intro d hd
    rw [List.mem_singleton.mp hd]
    exact ⟨[0x8000000000000000], rfl, by decide⟩
  obtain ⟨as, hspec, hlookup, hemit⟩ := exists_written numpyString_printsDecimals hassigned
  obtain ⟨chars, out, hemit', hparse, -⟩ := hall numpyString numpyInt64 numpyString_printsDecimals
    numpyInt64_converts [mask] [("mask".toList, [0x8000000000000000])] (by decide) hassigned []
    (64, 64, 64)
  obtain rfl := Except.ok.inj ((hemit [] (64, 64, 64)).symm.trans hemit')
  obtain ⟨a, rfl, hdecl⟩ := List.map_eq_singleton_iff.mp hspec
  have hvalues : a.values = [0x8000000000000000] := by
    have hmask := hlookup a (List.mem_singleton_self a)
    unfold Written.name at hmask
    rw [hdecl] at hmask
    exact (Option.some.inj hmask).symm
  -- the text is read as written, but the value does not fit
  have hoverflow : numpyInt64 a.values = .error .OverflowError := by
    rw [hvalues]
    exact numpyInt64_converts.overflow _ (by decide)
  rw [parse_fileText, List.foldlM_cons, hoverflow] at hparse
  cases hparse

end GenerateTestVectors
