import TreeQuery.Catalog.Indexing

/-!
# Walked trees

A walk yields a tree of named nodes. `Node.visits` lists its directories as visits, every
directory before those inside it: first the directory with its files, then its subdirectories one
after the other with all that is in them.

`Node` is the type of this name, `Node.visits` is `into_visits` and `visitsAt` is `push_visits`.
-/

namespace TreeQuery

/-- A node of a walked tree. -/
inductive Node where
  | mk (name : String) (stat : Stat) (children : List Node)

namespace Node

/-- The name, which is the last segment of the node's path. -/
def name : Node → String
  | mk name _ _ => name

/-- The record of the node. -/
def stat : Node → Stat
  | mk _ stat _ => stat

/-- The nodes inside. -/
def children : Node → List Node
  | mk _ _ children => children

/-- Whether the node is a directory. -/
def isDirectory (n : Node) : Bool := n.stat.isDirectory

/-- The visit of a directory at a path: what it holds directly. -/
def visit (path : String) (n : Node) : DirectoryVisit where
  directory := path
  stat := n.stat
  subdirectories := (n.children.filter isDirectory).map name
  files := (n.children.filter fun child => !child.isDirectory).map fun child =>
    ⟨child.name, child.stat⟩

mutual

/-- The visits of a directory at a path and of all directories below it. -/
def visitsAt (path : String) : Node → List DirectoryVisit
  | mk name stat children => visit path (mk name stat children) :: visitsBelow path children

/-- The visits of the directories among the nodes of a directory, and of all below them. -/
def visitsBelow (path : String) : List Node → List DirectoryVisit
  | [] => []
  | n :: ns =>
    (if n.isDirectory then visitsAt (childText path n.name) n else []) ++ visitsBelow path ns

end

/-- The visits of a tree, its root first. The root is visited whatever its record says. -/
def visits (n : Node) : List DirectoryVisit :=
  visitsAt RelPath.rootText n

end Node

end TreeQuery
