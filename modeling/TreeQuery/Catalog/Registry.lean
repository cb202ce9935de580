import TreeQuery.Catalog.IndexError
import TreeQuery.Path.Absolute

/-!
# The registry of directories

The registry knows the entry of every directory that was walked, by its place below the root. It
resolves the texts that a query names directories by: relative ones, and absolute ones below the
absolute root if there is one.

`Registry` is `PathRegistry`: `register`, `resolve?`, `root?` and `paths` have their names there,
`getText?` is `get`, `setRoot` is `set_absolute_root` and `place?` is `normalize`.
-/

namespace TreeQuery

/-- The walked directories and their entries. -/
structure Registry where
  directories : List (RelPath × EntryId) := []
  absoluteRoot? : Option String := none

namespace Registry

/-- The entry of a directory. -/
def get? (r : Registry) (path : RelPath) : Option EntryId := r.directories.lookup path

/-- The entry registered under a text, which must be the canonical spelling. -/
def getText? (r : Registry) (key : String) : Option EntryId :=
  (r.directories.find? fun d => d.1.text == key).map Prod.snd

/-- Sets the absolute path of the root. -/
def setRoot (r : Registry) (root : String) : Registry :=
  { r with absoluteRoot? := some (trimSlashes root) }

/-- Registers a directory under any spelling of its place; each can be registered once. -/
def register (r : Registry) (text : String) (id : EntryId) : Except IndexError Registry :=
  match RelPath.ofText? text with
  | none => .error (.unregistrable text)
  | some path =>
    match r.get? path with
    | some _ => .error (.visitedTwice path)
    | none => .ok { r with directories := r.directories ++ [(path, id)] }

/-- The place that a text names. A text that starts with a slash is read below the absolute
root. -/
def place? (r : Registry) (text : String) : Option RelPath :=
  if text.toList.head? = some '/' then do
    RelPath.ofText? (← stripRoot text (← r.absoluteRoot?))
  else RelPath.ofText? text

/-- The entry of the directory that a text names. -/
def resolve? (r : Registry) (text : String) : Option EntryId := do
  r.get? (← r.place? text)

/-- The entry of the root. -/
def root? (r : Registry) : Option EntryId := r.get? .root

/-- The registered directories in the order of their spellings. -/
def paths (r : Registry) : List String :=
  (r.directories.map fun d => d.1.text).mergeSort (· ≤ ·)

/-- How many directories are registered. -/
def size (r : Registry) : Nat := r.directories.length

end Registry

end TreeQuery
