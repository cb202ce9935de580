import TreeQuery.Catalog.Indexing
import TreeQuery.FileSystem.Basic
import TreeQuery.Text.Escaped

/-!
# Warnings

A walk goes on where something is in its way. What it left out it says in warnings.

These are the warnings of `record_error`, `drop_colliding_directories` and `finish`.
-/

namespace TreeQuery

/-- Something that a walk left out. -/
inductive Warning where
  /-- Directories that were announced and never visited. -/
  | notVisited (directories : List String)
  /-- Something that could not be read. -/
  | unreadable (path : RawPath) (fault : IoFault)
  /-- A directory whose name reads like that of another one beside it. -/
  | sameName (directory : RawPath) (name : String)
  deriving DecidableEq, Repr

/-- The wording of a warning. -/
def Warning.message : Warning → String
  | notVisited directories =>
    s!"dirql walk skipped {directories.length} announced directories: " ++
      Text.escapedList directories
  | unreadable path fault => s!"dirql walk skipped path={path.text} error={fault.message}"
  | sameName directory name =>
    s!"dirql walk skipped directory with colliding name path={directory.text} name={name}"

/-- The warnings when a walk has been taken in. -/
def Indexing.warnings (s : Indexing) : List Warning :=
  if s.skipped.isEmpty then [] else [.notVisited s.skipped]

end TreeQuery
