import TreeQuery.Entry.Id
import TreeQuery.Entry.Kind
import TreeQuery.Path.Relative
import TreeQuery.Time.Stamp

/-!
# Entries

What is known of one entry of a walked tree: its name, the directory it stands in, and the record
that the file system keeps of it.

`Stat` is `EntryStat`, with its `kind`, `is_dir` and `synthetic`. `NewEntry` and `Entry` are the
types of these names, with `full_path`, `type_code` and `fmt`.
-/

namespace TreeQuery

/-- What the file system records of an entry. -/
structure Stat where
  mode : UInt32
  size : UInt64 := 0
  accessTime : Timestamp := .epoch
  modificationTime : Timestamp := .epoch
  creationTime : Option Timestamp := none
  owner : UInt32 := 0
  group : UInt32 := 0
  deriving DecidableEq, Repr

namespace Stat

/-- A record of a given kind and size, and nothing else. -/
def plain (kind : EntryKind) (size : UInt64) : Stat := { mode := kind.bits, size }

/-- The kind that the record says. -/
def kind? (s : Stat) : Option EntryKind := EntryKind.ofMode? s.mode

/-- Whether the record is that of a directory. -/
def isDirectory (s : Stat) : Bool := s.kind? == some .directory

end Stat

/-- An entry before it is stored. -/
structure NewEntry where
  /-- The last segment of its path, `.` for the root of the walk. -/
  name : String
  /-- The directory that holds it, as the walk spells directories. -/
  directory : String
  stat : Stat
  deriving DecidableEq, Repr

/-- The directory and the name as one path. The root of a walk, named `.`, is its own
directory. -/
def NewEntry.fullPath (e : NewEntry) : String :=
  if e.name = RelPath.rootText then e.directory
  else if e.directory = RelPath.rootText ∨ e.directory.isEmpty then e.name
  else if e.directory.toList.getLast? = some '/' then e.directory ++ e.name
  else e.directory ++ "/" ++ e.name

/-- A stored entry. -/
structure Entry extends NewEntry where
  id : EntryId
  deriving DecidableEq

/-- The letter of the entry's kind. -/
def Entry.typeCode? (e : Entry) : Option Char := e.stat.kind?.map EntryKind.code

/-- The entry as a reader may be shown it: its name. -/
def Entry.display (e : Entry) : String := e.name

end TreeQuery
