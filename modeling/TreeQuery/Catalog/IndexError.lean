import TreeQuery.Entry.Id
import TreeQuery.Path.Relative
import TreeQuery.Text.Escaped

/-!
# What can go wrong while a tree is indexed

`IndexError` is the text of an `Index` error: the first two come from `insert` of the closure, the
third from that of the catalog, `unregistrable` from `register` and the others from `visit`. A
failed assertion is no error, so it is apart (`Halt.exhausted`).
-/

namespace TreeQuery

/-- Why an entry or a directory could not be added. -/
inductive IndexError where
  /-- Entries are linked in the order of their numbers. -/
  | outOfOrder (id expected : EntryId)
  /-- The parent is not linked yet. -/
  | unlinkedParent (parent id : EntryId)
  /-- The parent of a named entry is not stored yet. -/
  | missingParent (parent : EntryId) (name : String)
  /-- The text spells no place below the root. -/
  | outsideRoot (raw : String)
  /-- The text spells no place that a directory could be registered under. -/
  | unregistrable (text : String)
  /-- A visit of the root comes after other entries. -/
  | lateRoot
  | visitedTwice (path : RelPath)
  | beforeParent (path parent : RelPath)
  deriving DecidableEq

/-- The wording of an indexing error. -/
def IndexError.message : IndexError → String
  | outOfOrder id expected => s!"entry {id} linked out of order, expected {expected}"
  | unlinkedParent parent id => s!"parent {parent} of entry {id} is not indexed"
  | missingParent parent name => s!"parent {parent} of {Text.escaped name} is not indexed"
  | outsideRoot raw => s!"directory path {Text.escaped raw} is outside the walk root"
  | unregistrable text => s!"cannot register directory path {Text.escaped text}"
  | lateRoot => "walk root must be the first visit"
  | visitedTwice path => s!"directory {Text.escaped path.text} visited twice"
  | beforeParent path parent =>
    s!"directory {Text.escaped path.text} visited before its parent {Text.escaped parent.text}"

/-- Why a computation stops before its end. -/
inductive Halt where
  /-- It returns an error. -/
  | refused (e : IndexError)
  /-- There is no number left for an entry, and the program ends. -/
  | exhausted
  deriving DecidableEq

/-- What needs a number comes to nothing if there is none left. -/
def Halt.orExhausted {α : Type} : Option α → Except Halt α
  | some a => .ok a
  | none => .error .exhausted

end TreeQuery
