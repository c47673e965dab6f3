import Kronos.Utf8

namespace Kronos.Strings
open ByteRange Utf8

-- The functions of Go's strings package that identifiers, schedules, scopes and
-- SQL texts are read with.
def spaceRune : Bytes → Bool
  | [b] => b = 0x20 || (0x09 ≤ b && b ≤ 0x0D)
  | [b,c] => b = 0xC2 && (c = 0x85 || c = 0xA0)
  | [b,c,d] =>
    (b = 0xE1 && c = 0x9A && d = 0x80) ||
    (b = 0xE2 && c = 0x80 && ((0x80 ≤ d && d ≤ 0x8A) || d = 0xA8 || d = 0xA9 || d = 0xAF)) ||
    (b = 0xE2 && c = 0x81 && d = 0x9F) || (b = 0xE3 && c = 0x80 && d = 0x80)
  | _ => false

def spacePiece : Piece → Bool
  | .rune bytes => spaceRune bytes
  | .bad _ => false

def trimSpace (text : Bytes) : Bytes :=
  ((((pieces text).dropWhile spacePiece).reverse.dropWhile spacePiece).reverse).flatMap Piece.bytes

-- IsZero of core.ID: an identifier of spaces only is no identifier.
def blank (id : Bytes) : Bool := trimSpace id = []

theorem unspaced_remains {pieces : List Piece} (member : piece ∈ pieces) (solid : spacePiece piece = false) :
    piece ∈ pieces.dropWhile spacePiece := by
  rw [← List.takeWhile_append_dropWhile (p := spacePiece) (l := pieces),List.mem_append] at member
  rcases member with dropped | remains
  · rw [List.all_eq_true.mp List.all_takeWhile piece dropped] at solid
    cases solid
  · exact remains

-- Spaces are runes, so a blank text has no broken byte.
theorem blank_valid {id : Bytes} (empty : blank id = true) : Valid id := by
  intro piece member
  cases piece with
  | rune => rfl
  | bad b =>
    have remains := unspaced_remains (List.mem_reverse.mpr (unspaced_remains member rfl)) rfl
    have there : b ∈ trimSpace id := List.mem_flatMap.mpr ⟨_,List.mem_reverse.mpr remains,List.mem_singleton_self b⟩
    rw [of_decide_eq_true empty] at there
    cases there

def fieldsFrom : List Piece → Bytes → List Bytes
  | [],field => if field = [] then [] else [field]
  | piece :: rest,field =>
    if spacePiece piece then (if field = [] then [] else [field]) ++ fieldsFrom rest []
    else fieldsFrom rest (field ++ piece.bytes)

def fields (text : Bytes) : List Bytes := fieldsFrom (pieces text) []

-- ToLower as far as ASCII goes: the dotted I and the Kelvin sign are the only
-- other letters with an ASCII lower case.
def toLower : Bytes → Bytes
  | 0xC4 :: 0xB0 :: rest => 0x69 :: toLower rest
  | 0xE2 :: 0x84 :: 0xAA :: rest => 0x6B :: toLower rest
  | b :: rest => (if 0x41 ≤ b ∧ b ≤ 0x5A then b + 0x20 else b) :: toLower rest
  | [] => []

-- ToUpper as far as ASCII goes: the dotless i and the long s are the only other
-- letters with an ASCII upper case.
def toUpper : Bytes → Bytes
  | 0xC4 :: 0xB1 :: rest => 0x49 :: toUpper rest
  | 0xC5 :: 0xBF :: rest => 0x53 :: toUpper rest
  | b :: rest => (if 0x61 ≤ b ∧ b ≤ 0x7A then b - 0x20 else b) :: toUpper rest
  | [] => []

-- strings.ReplaceAll of one byte by two of it.
def doubled (mark : UInt8) (text : Bytes) : Bytes := text.flatMap fun b => if b = mark then [b,b] else [b]

-- Behind the opening quote: a doubled quote stands for one, the next one ends
-- the text, and nothing else is special.
def undouble (mark : UInt8) : Bytes → Option (Bytes × Bytes)
  | [] => none
  | b :: rest =>
    if b ≠ mark then (undouble mark rest).map fun read => (b :: read.1,read.2) else match rest with
    | [] => some ([],[])
    | c :: more => if c = mark then (undouble mark more).map fun read => (mark :: read.1,read.2) else some ([],rest)

def readQuoted (mark : UInt8) (input : Bytes) : Option (Bytes × Bytes) :=
  if input.head? = some mark then undouble mark input.tail else none

theorem undouble_doubled (apart : rest.head? ≠ some mark) (value : Bytes) :
    undouble mark (doubled mark value ++ mark :: rest) = some (value,rest) := by
  induction value with
  | nil =>
    cases rest with
    | nil => simp [doubled,undouble]
    | cons => simpa [doubled,undouble] using apart
  | cons b value ih =>
    by_cases same : b = mark
    · simpa [doubled,undouble,same] using ih
    · have single : doubled mark (b :: value) = b :: doubled mark value := by simp [doubled,same]
      rw [single,List.cons_append,undouble.eq_def]
      simp [same,ih]

theorem readQuoted_exact (apart : rest.head? ≠ some mark) (value : Bytes) :
    readQuoted mark (mark :: (doubled mark value ++ [mark]) ++ rest) = some (value,rest) := by
  simpa [readQuoted] using undouble_doubled apart value

end Kronos.Strings
