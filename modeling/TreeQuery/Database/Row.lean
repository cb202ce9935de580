import TreeQuery.Catalog.Closure
import TreeQuery.Database.Value
import TreeQuery.Entry.Basic
import TreeQuery.Schema

/-!
# Rows

A row of a table is a list of cells in the order of `Table.columns`. An entry is a row of `files`,
and an edge is a row of `relations`. A row that a query looks at is made of one of each.

`Entry.cells` and `Edge.cells` are what `load` binds to the parameters of `INSERT_FILE` and
`INSERT_RELATION`.
-/

namespace TreeQuery

open Database

/-- The largest number that a cell holds. -/
def greatestInteger : Nat := 0x7FFFFFFFFFFFFFFF

/-- The number of an entry as tables hold it. -/
def EntryId.key (id : EntryId) : Int64 := .ofNat id.number

/-- A size as a cell holds it: one too large becomes the largest number. -/
def sizeValue (size : UInt64) : Value := .integer (.ofNat (min size.toNat greatestInteger))

/-- A text that may be missing. -/
def optionalText (s? : Option String) : Value := (s?.map Value.text).getD .null

namespace Table

/-- The columns of a table in the order of the cells of a row. -/
def columns : Table → List Field
  | files =>
    [.fileId, .fileName, .directory, .fullPath, .fileType, .fileSize, .accessTime,
      .modificationTime, .creationTime, .ownerId, .groupId]
  | relations => [.ancestorId, .descendantId, .depth]

/-- What a row of a table holds in a column. -/
def cell (t : Table) (cells : List Value) (f : Field) : Value :=
  (cells[t.columns.idxOf f]?).getD .null

end Table

/-- The row of an entry. -/
def Entry.cells (e : Entry) : List Value :=
  [.integer e.id.key,
    .text e.name,
    .text e.directory,
    .text e.fullPath,
    optionalText (e.typeCode?.map Char.toString),
    sizeValue e.stat.size,
    .text e.stat.accessTime.text,
    .text e.stat.modificationTime.text,
    optionalText (e.stat.creationTime.map Timestamp.text),
    .integer (.ofNat e.stat.owner.toNat),
    .integer (.ofNat e.stat.group.toNat)]

/-- The row of an edge. -/
def Edge.cells (e : Edge) : List Value :=
  [.integer e.ancestor.key, .integer e.descendant.key, .integer (.ofNat e.depth)]

/-- A row of `files` and one of `relations`. -/
structure Row where
  file : List Value
  relation : List Value

/-- What a column holds. -/
def Row.value (r : Row) (f : Field) : Value :=
  match f.table with
  | .files => Table.files.cell r.file f
  | .relations => Table.relations.cell r.relation f

end TreeQuery
