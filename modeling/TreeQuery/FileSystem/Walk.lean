import TreeQuery.Tree
import TreeQuery.Warning

/-!
# Walking the file system

A walk turns a directory and everything below it into a tree. The nodes of a directory come in the
order of their names. Links are not followed. Ignored paths are left out with all that is under
them, and so is what cannot be read. Names are bytes; where the names of two directories read the
same as text, only the first is kept, so that every directory has a path of its own.

Nodes whose names read the same may come in any order, so it is left open which of two such
directories is the first: a `NameOrder` says how nodes are put in order, and a walk is given one.

`FsNode.walkRoot` is `walk_it`, `FsNode.walk` is `walk`, `walkEntries` with `settle` is
`walk_children`, `dropSameNames` is `drop_colliding_directories` and `FsNode.walkRoot` starts the
counts of `WalkData`. Directories are walked one after the other here, so warnings have an order.
-/

namespace TreeQuery

/-- What a walk has met. -/
structure Tally where
  directories : Nat := 0
  files : Nat := 0
  skipped : Nat := 0
  warnings : List Warning := []
  deriving DecidableEq, Repr

namespace Tally

/-- One more of something left out, and the warning about it. -/
def skip (warning : Warning) : Tally := { skipped := 1, warnings := [warning] }

/-- What two walks have met together. -/
def add (a b : Tally) : Tally where
  directories := a.directories + b.directories
  files := a.files + b.files
  skipped := a.skipped + b.skipped
  warnings := a.warnings ++ b.warnings

end Tally

/-- The nodes that a walk yields, and what it has met. -/
structure Walked where
  nodes : List Node := []
  tally : Tally := {}

namespace Walked

/-- Two walks one after the other. -/
def append (a b : Walked) : Walked :=
  ⟨a.nodes ++ b.nodes, a.tally.add b.tally⟩

end Walked

/-- Of directories with the same name the first is kept. Gives the nodes that stay and the names
of those that go. -/
def dropSameNames (seen : List String) : List Node → List Node × List String
  | [] => ([], [])
  | n :: ns =>
    if !n.isDirectory then
      let (kept, dropped) := dropSameNames seen ns
      (n :: kept, dropped)
    else if n.name ∈ seen then
      let (kept, dropped) := dropSameNames seen ns
      (kept, n.name :: dropped)
    else
      let (kept, dropped) := dropSameNames (n.name :: seen) ns
      (n :: kept, dropped)

/-- A way to put the nodes of a directory in the order of their names. It may differ from one
directory to the other in what it does to nodes of the same name. -/
structure NameOrder where
  arrange : RawPath → List Node → List Node
  perm : ∀ directory nodes, (arrange directory nodes).Perm nodes
  sorted : ∀ directory nodes, (arrange directory nodes).Pairwise fun a b => a.name ≤ b.name

/-- The order that leaves nodes of the same name as they were. -/
def NameOrder.stable : NameOrder where
  arrange _ nodes := nodes.mergeSort fun a b => a.name ≤ b.name
  perm _ nodes := List.mergeSort_perm nodes _
  sorted _ nodes := by
    have hsorted := @List.pairwise_mergeSort Node (fun a b => a.name ≤ b.name)
      (fun a b c hab hbc =>
        decide_eq_true (String.le_trans (of_decide_eq_true hab) (of_decide_eq_true hbc)))
      (fun a b => by simp [String.le_total a.name b.name]) nodes
    exact hsorted.imp of_decide_eq_true

/-- The nodes of a directory in their final order and number. -/
def settle (order : NameOrder) (directory : RawPath) (found : Walked) : Walked :=
  let (kept, dropped) := dropSameNames [] (order.arrange directory found.nodes)
  dropped.foldl (fun w name => { w with tally := w.tally.add (.skip (.sameName directory name)) })
    ⟨kept, found.tally⟩

mutual

/-- The walk of what stands at a path under a name. -/
def FsNode.walk (order : NameOrder) (ignored : List RawPath) (path : RawPath) (name : String) :
    FsNode → Walked
  | .unreadable fault => ⟨[], .skip (.unreadable path fault)⟩
  | .file stat | .link stat _ => ⟨[.mk name stat []], { files := 1 }⟩
  | .sealed stat fault =>
    ⟨[.mk name stat []], Tally.add { directories := 1 } (.skip (.unreadable path fault))⟩
  | .directory stat entries =>
    let inside := settle order path (walkEntries order ignored path entries)
    ⟨[.mk name stat inside.nodes], Tally.add { directories := 1 } inside.tally⟩

/-- The walk of what a directory lists, ignored paths left out. -/
def walkEntries (order : NameOrder) (ignored : List RawPath) (directory : RawPath) :
    List (RawName × FsNode) → Walked
  | [] => {}
  | (name, node) :: rest =>
    let path := directory.child name
    let others := walkEntries order ignored directory rest
    if ignored.any path.under then others
    else (node.walk order ignored path (Text.decodeLossy name)).append others

end

/-- The walk from a root, which is always part of it and is named `.`. It fails if the record of
the root cannot be read. -/
def FsNode.walkRoot (order : NameOrder) (ignored : List RawPath) (path : RawPath)
    (root : FsNode) : Except IoFault (Node × Tally) :=
  let walked := root.walk order ignored path RelPath.rootText
  match root, walked.nodes with
  | .unreadable fault, _ => .error fault
  | _, node :: _ => .ok (node, walked.tally)
  | _, [] => .error .notFound

end TreeQuery
