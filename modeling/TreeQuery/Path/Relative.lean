/-!
# Paths below the root

The place of an entry below the root of a walk is a list of segments, the root's own place the
empty list. `RelPath.ofText?` reads any spelling of such a place: empty segments and `.` are
dropped, and `..` takes back the segment before it. `RelPath.text` is the one canonical spelling:
`.` for the root, and otherwise the segments with a slash between them.

`RelPath.ofText?` and then `RelPath.text` are `normalize_relative_path`, `RelPath.split?` is
`split_parent` and `childText` is `join_relative`.
-/

namespace TreeQuery

/-! ## Segments -/

/-- The pieces of a text between its slashes: one more than there are slashes. -/
def splitSlash : List Char → List (List Char)
  | [] => [[]]
  | c :: cs =>
    if c = '/' then [] :: splitSlash cs
    else
      match splitSlash cs with
      | [] => [[c]]
      | piece :: pieces => (c :: piece) :: pieces

/-- Pieces with a slash between any two. -/
def joinSlash : List (List Char) → List Char
  | [] => []
  | [piece] => piece
  | piece :: pieces => piece ++ '/' :: joinSlash pieces

/-- A piece that names something: not empty, neither `.` nor `..`, and without a slash. -/
def IsOrdinary (piece : List Char) : Prop :=
  piece ≠ [] ∧ piece ≠ ['.'] ∧ piece ≠ ['.', '.'] ∧ '/' ∉ piece

instance (piece : List Char) : Decidable (IsOrdinary piece) := by
  unfold IsOrdinary; infer_instance

/-- One segment of a path. -/
structure Segment where
  chars : List Char
  ordinary : IsOrdinary chars
  deriving DecidableEq

/-- The segment that a piece of a text is, if it names something. -/
def Segment.ofChars? (piece : List Char) : Option Segment :=
  if h : IsOrdinary piece then some ⟨piece, h⟩ else none

/-- The text of a segment. -/
def Segment.text (s : Segment) : String :=
  String.ofList s.chars

/-! ## Paths -/

/-- A place below the root of a walk. -/
structure RelPath where
  segments : List Segment
  deriving DecidableEq

namespace RelPath

/-- The root itself. -/
def root : RelPath := ⟨[]⟩

/-- The written form of the root. -/
def rootText : String := "."

/-- The canonical spelling. -/
def text (p : RelPath) : String :=
  match p.segments with
  | [] => rootText
  | segments => String.ofList (joinSlash (segments.map Segment.chars))

/-- Follows the pieces of a text from a place, whose segments are given innermost first. There is
no way up from the root. -/
def follow : List (List Char) → List Segment → Option (List Segment)
  | [], place => some place
  | piece :: pieces, place =>
    if piece = ['.', '.'] then
      match place with
      | [] => none
      | _ :: above => follow pieces above
    else
      match Segment.ofChars? piece with
      | some s => follow pieces (s :: place)
      | none => follow pieces place

/-- The place that a text spells. The empty text and texts that start with a slash spell none, nor
does one that leads above the root. -/
def ofText? (raw : String) : Option RelPath :=
  match raw.toList with
  | [] => none
  | '/' :: _ => none
  | cs => (follow (splitSlash cs) []).map fun place => ⟨place.reverse⟩

/-- The place above, and the segment that leads down from it; the root has none. -/
def split? (p : RelPath) : Option (RelPath × Segment) :=
  p.segments.getLast?.map fun s => (⟨p.segments.dropLast⟩, s)

end RelPath

/-- The text of a directory's path with the name of one of its entries behind it. -/
def childText (directory name : String) : String :=
  if directory = RelPath.rootText then name else directory ++ "/" ++ name

end TreeQuery
