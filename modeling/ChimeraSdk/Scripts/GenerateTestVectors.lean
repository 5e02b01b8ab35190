import ChimeraSdk.Framework.Digits
import ChimeraSdk.Scripts.CheckSectionOverlaps

/-! # The Test-Vector Generator

    `generate_test_vectors.py` reads the arrays out of a C file that
    another generator has exported, with `parse_c_arrays`, and writes a
    selection of them into the C files of the tests, with
    `emit_ita_file`.

    The reader does not parse C: it strips the comments, finds the
    initialisers with a regular expression, matches braces by counting and
    picks the numbers out of what lies between. -/

open Regex
open CheckSectionOverlaps (isSpace isDigit Token)

namespace GenerateTestVectors

/-! ## Section 1: Dictionaries and arrays -/

inductive Error where
  | KeyError (name : List Char)
  | OverflowError
  deriving DecidableEq, Repr

/-- A dictionary from names to arrays, in the order of insertion. -/
abbrev Dict : Type := List (List Char × List Int)

/-- `out[name] = values` -/
def setItem (name : List Char) (values : List Int) : Dict → Dict
  | [] => [(name, values)]
  | (n, v) :: out => if n = name then (n, values) :: out else (n, v) :: setItem name values out

/-- The range of `np.int64`. -/
def IsInt64 (v : Int) : Prop := -0x8000000000000000 ≤ v ∧ v < 0x8000000000000000

instance (v : Int) : Decidable (IsInt64 v) := inferInstanceAs (Decidable (_ ∧ _))

/-- `int64Array`, which is `np.array` with `dtype = np.int64`, takes the
    integers that fit, and no others. -/
structure ConvertsInt64 (int64Array : List Int → Except Error (List Int)) : Prop where
  fit : ∀ values, (∀ v ∈ values, IsInt64 v) → int64Array values = .ok values
  overflow : ∀ values, (¬ ∀ v ∈ values, IsInt64 v) → int64Array values = .error .OverflowError

/-! ## Section 2: The reader -/

/-- `\w`, for the ASCII text that the emitter writes. -/
def isWord (c : Char) : Bool :=
  isDigit c || (65 ≤ c.toNat && c.toNat ≤ 90) || c.toNat == 95 || (97 ≤ c.toNat && c.toNat ≤ 122)

/-- `//[^\n]*` -/
def COMMENT : Re := .seq (.char (· == '/')) <| .seq (.char (· == '/')) <| star (· != '\n')

/-- `(\w+)\s*\[[^=]*=\s*\{` -/
def ARRAY : Re :=
  .seq (.group 1 (.plus isWord)) <| .seq (star isSpace) <| .seq (.char (· == '[')) <|
  .seq (star (· != '=')) <| .seq (.char (· == '=')) <| .seq (star isSpace) (.char (· == '\x7b'))

/-- `-?\d+` -/
def NUMBER : Re := .seq (.optional (.char (· == '-'))) (.plus isDigit)

/-- `int(w)` for the digits behind the sign -/
def nat10 (w : List Char) : Nat := w.foldl (fun n c => 10 * n + (c.toNat - 48)) 0

/-- `int(w)` -/
def int10 (w : List Char) : Int :=
  if w.head? = some '-' then -nat10 w.tail else nat10 w

/-- What the loop over `depth` and `i` passes: the text up to the brace that
    closes the initialiser, the brace included. -/
def scanBraces : Nat → List Char → List Char
  | _, [] => []
  | depth, c :: cs =>
      if depth = 0 then []
      else c :: scanBraces
        (depth + (if c = '\x7b' then 1 else 0) - (if c = '\x7d' then 1 else 0)) cs

/-- `stripped[m.end():i - 1]` -/
def initialiser (m : Match) : List Char := (scanBraces 1 m.rest).dropLast

/-- The numbers in a body. -/
def numbers (body : List Char) : List Int := (allMatches NUMBER body).map (fun n => int10 n.matched)

section reader

-- `np.array` with `dtype = np.int64`
variable (int64Array : List Int → Except Error (List Int))

/-- One turn of the loop over the initialisers. -/
def readArray (out : Dict) (m : Match) : Except Error Dict :=
  let values := numbers (initialiser m)
  if values = [] then .ok out
  else (int64Array values).map (fun v => setItem ((m.groups 1).getD []) v out)

def parse_c_arrays (chars : List Char) : Except Error Dict :=
  (allMatches ARRAY (sub COMMENT [] chars)).foldlM (readArray int64Array) []

end reader

/-! ## Section 3: The emitter -/

/-- An integer in decimal. -/
def decimal (v : Int) : List Char :=
  if v < 0 then '-' :: Nat.toDigits 10 v.natAbs else Nat.toDigits 10 v.natAbs

/-- A type of the specification: a C type in front of a declared name. -/
structure CType where
  chars : List Char
  no_slash : '/' ∉ chars
  no_bracket : '[' ∉ chars

/-- An entry `(ctype, name, rank)` of the specification. -/
structure Declaration where
  ctype : CType
  name : Token isWord
  rank : Nat

/-- A line of a comment, behind `//`. -/
structure CommentLine where
  chars : List Char
  no_newline : '\n' ∉ chars

def comment (line : List Char) : List Char := "//".toList ++ (line ++ ['\n'])

/-- The comment that opens a file.  Its first lines are the parameter
    `preamble`. -/
def headerLines (preamble : List CommentLine) (shape : Int × Int × Int) : List (List Char) :=
  preamble.map CommentLine.chars ++
    [[],
     " GENERATED FILE -- DO NOT EDIT, AND DO NOT COMMIT.".toList,
     " Produced by scripts/generate_test_vectors.py from ITA's testGenerator.py".toList,
     "   python testGenerator.py -S ".toList ++ (decimal shape.1 ++ (" -E ".toList ++
       (decimal shape.2.1 ++ (" -P ".toList ++ (decimal shape.2.2 ++
         " -B 1 -H 1 --export-snitch-cluster".toList))))),
     " See docs on regenerating test vectors for the full flow.".toList]

def HEADER (preamble : List CommentLine) (shape : Int × Int × Int) : List Char :=
  (headerLines preamble shape).flatMap comment ++
    ("\n#include \"ITA_mem.h\"\n\n".toList ++ comment " clang-format off".toList)

section emitter

-- `np.array2string` with `separator = ','`, for a flattened array
variable (array2string : List Int → List Char)

def format_array (values : List Int) : List Char := ((array2string values).drop 1).dropLast

/-- The brackets behind a name. -/
def dims (rank size : Nat) : List Char :=
  if rank = 1 then '[' :: (Nat.toDigits 10 size ++ [']'])
  else "[1][".toList ++ (Nat.toDigits 10 size ++ [']'])

/-- A declaration with its initialiser. -/
def declaration (d : Declaration) (size : Nat) (inner : List Char) : List Char :=
  if d.rank = 1 then
    "const ".toList ++ (d.ctype.chars ++ (' ' :: (d.name.chars ++ (dims d.rank size ++
      (" = \x7b\n".toList ++ (inner ++ "\n\x7d;\n".toList))))))
  else
    "const ".toList ++ (d.ctype.chars ++ (' ' :: (d.name.chars ++ (dims d.rank size ++
      (" = \x7b\n\x7b\n".toList ++ (inner ++ "\n\x7d\n\x7d;\n".toList))))))

/-- `arrays[name]` -/
def getItem (arrays : Dict) (name : List Char) : Except Error (List Int) :=
  match arrays.lookup name with
  | some v => .ok v
  | none => .error (.KeyError name)

def emit_ita_file (preamble : List CommentLine) (arrays : Dict) (spec : List Declaration)
    (shape : Int × Int × Int) : Except Error (List Char) := do
  let body ← spec.mapM (fun d => do
    let v ← getItem arrays d.name.chars
    return declaration d v.length (format_array array2string v))
  return HEADER preamble shape ++ (body.flatten ++ comment " clang-format on".toList)

end emitter

/-! ## Section 4: What numpy prints -/

/-- Blanks. -/
def Blanks (w : List Char) : Prop := ∀ c ∈ w, c = ' '

/-- Integers in decimal, separated by commas, with blanks around them. -/
inductive Printed : List Int → List Char → Prop
  | last (v : Int) {l r : List Char} (hl : Blanks l) (hr : Blanks r) :
      Printed [v] (l ++ (decimal v ++ r))
  | more (v : Int) {l r : List Char} (hl : Blanks l) (hr : Blanks r) {values : List Int}
      {w : List Char} (h : Printed values w) :
      Printed (v :: values) (l ++ (decimal v ++ (r ++ ',' :: w)))

/-- `array2string` prints an array in brackets. -/
def PrintsDecimals (array2string : List Int → List Char) : Prop :=
  ∀ values, values ≠ [] →
    ∃ inner, Printed values inner ∧ array2string values = '[' :: (inner ++ [']'])

theorem format_array_inner {array2string : List Int → List Char} (h : PrintsDecimals array2string)
    {values : List Int} (hne : values ≠ []) :
    Printed values (format_array array2string values) := by
  obtain ⟨inner, hprinted, heq⟩ := h values hne
  have hformat : format_array array2string values = inner := by
    unfold format_array
    rw [heq, List.drop_one, List.tail_cons, List.dropLast_concat]
  rwa [hformat]

end GenerateTestVectors
