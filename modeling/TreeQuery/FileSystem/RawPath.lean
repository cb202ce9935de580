import TreeQuery.Text.Utf8

/-!
# Paths of the file system

The file system names things by bytes. Two spellings of a path that differ only in repeated
slashes, in slashes at the end or in `.` between slashes have the same `RawPath.parts`, and one
path lies under another if its parts begin with the parts of the other.

`RawPath.under` is the test that `should_ignore` makes of every ignored path.
-/

namespace TreeQuery

/-- The bytes of a path. -/
abbrev RawPath := List UInt8

/-- The bytes of a name in a directory. -/
abbrev RawName := List UInt8

/-- The byte that separates the names in a path. -/
def slashByte : UInt8 := 0x2F

/-- The byte of a dot. -/
def dotByte : UInt8 := 0x2E

namespace RawPath

/-- The pieces of a path between its slashes. -/
def pieces : RawPath → List RawName
  | [] => [[]]
  | b :: bytes =>
    if b = slashByte then [] :: pieces bytes
    else
      match pieces bytes with
      | [] => [[b]]
      | piece :: rest => (b :: piece) :: rest

/-- A path from the root of the file system. -/
def isAbsolute (path : RawPath) : Bool := path.head? == some slashByte

/-- A part of a path. -/
inductive Part where
  /-- The root of the file system. -/
  | root
  /-- The dot that a path begins with. -/
  | here
  | name (bytes : RawName)
  deriving DecidableEq, Repr

/-- The parts that the pieces of a path name: empty pieces and dots name none. -/
def namedParts (pieces : List RawName) : List Part :=
  (pieces.filter fun piece => piece != [] && piece != [dotByte]).map .name

/-- The parts of a path. -/
def parts (path : RawPath) : List Part :=
  match path.pieces with
  | [] => []
  | first :: rest =>
    if path.isAbsolute then .root :: namedParts rest
    else if first = [dotByte] then .here :: namedParts rest
    else namedParts (first :: rest)

/-- Whether a path is another path or lies under it. -/
def under (path above : RawPath) : Bool :=
  above.parts.isPrefixOf path.parts

/-- The path of a name in a directory. -/
def child (directory : RawPath) (name : RawName) : RawPath :=
  if directory.getLast? == some slashByte || directory.isEmpty then directory ++ name
  else directory ++ slashByte :: name

/-- The path as it is shown. -/
def text (path : RawPath) : String := Text.decodeLossy path

end RawPath

end TreeQuery
