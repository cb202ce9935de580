import TreeQuery.Catalog.IndexError

/-!
# Who lies below whom

The closure keeps an edge for every pair of an entry and another at or above it, with their
distance. A new entry gets an edge to itself, and one for each edge that leads up from its parent.
The edges stand in one sequence; two tables tell for every entry at which positions the edges lead
down from it, and at which they lead up. So what lies below an entry, or above it, is read off
without a search.

`Closure` is `ClosureIndex`, with its `insert` and `push_edge`, and `subtree`, `ancestors` and
`depth` that read it.
-/

namespace TreeQuery

/-- An entry and the distance to it. -/
structure Kin where
  id : EntryId
  depth : Nat
  deriving DecidableEq

/-- A pair of an entry and another at or above it, and how many steps up it is. -/
structure Edge where
  ancestor : EntryId
  descendant : EntryId
  depth : Nat
  deriving DecidableEq

/-- The edge as a reader may be shown it. -/
def Edge.display (e : Edge) : String := s!"{e.ancestor} - {e.descendant}"

/-- For every entry the positions of some edges. A position is kept in 32 bits. -/
abbrev PositionTable := Array (Array UInt32)

/-- The positions that are kept for an entry; for one that is not there, none. -/
def PositionTable.row (table : PositionTable) (id : EntryId) : List UInt32 :=
  ((table[id.slot]?).getD #[]).toList

/-- One more position for an entry. -/
def PositionTable.note (table : PositionTable) (id : EntryId) (position : UInt32) : PositionTable :=
  table.modify id.slot fun row => row.push position

/-- The edges between the linked entries, in the order in which they came to be, with the positions
of the edges that lead down from an entry and of those that lead up from it. -/
structure Closure where
  arena : Array Edge := #[]
  byAncestor : PositionTable := #[]
  byDescendant : PositionTable := #[]

namespace Closure

/-- How many entries are linked. -/
def size (c : Closure) : Nat := c.byDescendant.size

/-- Whether an entry is linked. -/
def contains (c : Closure) (id : EntryId) : Bool := id.slot < c.size

/-- Every edge, in the order in which they came to be. -/
def edges (c : Closure) : List Edge := c.arena.toList

/-- How many edges there are. -/
def edgeCount (c : Closure) : Nat := c.arena.size

/-- The edges at the positions that a table keeps for an entry. -/
def edgesIn (c : Closure) (table : PositionTable) (id : EntryId) : List Edge :=
  (table.row id).filterMap fun position => c.arena[position.toNat]?

/-- The entries at and below an entry, in the order of their numbers. -/
def subtree (c : Closure) (root : EntryId) : List Kin :=
  (c.edgesIn c.byAncestor root).map fun e => ⟨e.descendant, e.depth⟩

/-- The entries at and above an entry, itself first. An entry that is not linked has none. -/
def ancestors (c : Closure) (id : EntryId) : List Kin :=
  (c.edgesIn c.byDescendant id).map fun e => ⟨e.ancestor, e.depth⟩

/-- The distance from an entry up to another, if that lies above it. -/
def depth? (c : Closure) (ancestor descendant : EntryId) : Option Nat :=
  ((c.ancestors descendant).find? fun k => k.id == ancestor).map Kin.depth

/-- Puts an edge at the end and notes its position at both of its ends. -/
def pushEdge (c : Closure) (e : Edge) : Closure :=
  let position := c.arena.size.toUInt32
  { arena := c.arena.push e
    byAncestor := c.byAncestor.note e.ancestor position
    byDescendant := c.byDescendant.note e.descendant position }

/-- A new entry with the edge to itself. -/
def pushSelf (c : Closure) (id : EntryId) : Closure :=
  { c with byAncestor := c.byAncestor.push #[], byDescendant := c.byDescendant.push #[] }.pushEdge
    ⟨id, id, 0⟩

/-- An edge for every entry at or above the parent, one step further away. -/
def inherit (c : Closure) (id parent : EntryId) : Closure :=
  let inherited := (c.ancestors parent).map fun kin => ⟨kin.id, id, kin.depth + 1⟩
  inherited.foldl pushEdge c

/-- Links an entry below its parent, or as a root. Entries come in the order of their numbers, and
parents before their children. -/
def insert (c : Closure) (id : EntryId) (parent? : Option EntryId) : Except Halt Closure :=
  match EntryId.ofSlot? c.size with
  | none => .error .exhausted
  | some expected =>
    if id ≠ expected then .error (.refused (.outOfOrder id expected))
    else
      match parent? with
      | some parent =>
        if c.contains parent then .ok ((c.pushSelf id).inherit id parent)
        else .error (.refused (.unlinkedParent parent id))
      | none => .ok (c.pushSelf id)

end Closure

end TreeQuery
