import TreeQuery.Path.Relative

/-!
# Absolute paths

The root of a walk may be known by an absolute path. Texts are then also read relative to that
path: `stripRoot` takes the root off the front of an absolute text.

`trimSlashes` is `normalize_absolute_path` and `stripRoot` is `strip_root`. `Naming` is
`DirectoryNaming`, with its `spell`.
-/

namespace TreeQuery

/-- An absolute path without slashes at its end, except for the one that is all of it. -/
def trimSlashes (raw : String) : String :=
  let trimmed := (raw.toList.reverse.dropWhile (· == '/')).reverse
  if trimmed.isEmpty && !raw.isEmpty then "/" else String.ofList trimmed

/-- What is left of a text when a front of it is taken away. -/
def dropFront? : List Char → List Char → Option (List Char)
  | [], text => some text
  | _ :: _, [] => none
  | c :: front, d :: text => if c = d then dropFront? front text else none

/-- The text that remains of an absolute path below `root`, `.` for the root itself. -/
def stripRoot (candidate root : String) : Option String := do
  let rest ← dropFront? root.toList candidate.toList
  let rest ←
    if rest.isEmpty ∨ root.toList.getLast? = some '/' then some rest
    else dropFront? ['/'] rest
  let rest := rest.dropWhile (· == '/')
  return if rest.isEmpty then RelPath.rootText else String.ofList rest

/-- How the directory of an entry is spelled: relative to the root of the walk, or below the
absolute path of that root. -/
inductive Naming where
  | relative
  | absolute (root : String)
  deriving DecidableEq, Repr

/-- The spelling of a place below the root. -/
def Naming.spell (naming : Naming) (place : RelPath) : String :=
  match naming with
  | relative => place.text
  | absolute root =>
    if place = RelPath.root then root
    else if root.toList.getLast? = some '/' then root ++ place.text
    else root ++ "/" ++ place.text

end TreeQuery
