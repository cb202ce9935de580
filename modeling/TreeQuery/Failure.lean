import TreeQuery.Catalog.IndexError
import TreeQuery.Database.Fault
import TreeQuery.FileSystem.Basic
import TreeQuery.Query.SyntaxError

/-!
# Failures

Everything that can keep a session from being opened or a statement from being answered.

`Failure` is `DirqlError`, with one cause more: the program may end for want of numbers.
-/

namespace TreeQuery

/-- Why there is no session or no answer. -/
inductive Failure where
  | io (fault : IoFault)
  /-- The text is no statement. -/
  | statement (e : Query.SyntaxError)
  /-- The path of the statement names no walked directory. -/
  | unknownPath (path : String)
  | index (e : IndexError)
  | engine (fault : Database.Fault)
  | notDirectory (path : RawPath)
  /-- There are more entries than can be numbered, and the program ends. -/
  | exhausted
  deriving DecidableEq

/-- The wording of a failure. -/
def Failure.message : Failure → String
  | io fault => "IO error: " ++ fault.message
  | statement e => "parser error: " ++ e.message
  | unknownPath path => "unknown path: " ++ path
  | index e => "Index error: " ++ e.message
  | engine fault => "engine error: " ++ fault.message
  | notDirectory path => "Invalid input: not a directory: " ++ path.text
  | exhausted => EntryId.exhaustion

/-- The failure of an indexing that has ended early. -/
def Halt.failure : Halt → Failure
  | refused e => .index e
  | exhausted => .exhausted

end TreeQuery
