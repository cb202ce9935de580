import TreeQuery.Catalog.Basic
import TreeQuery.Database.Fault
import TreeQuery.Database.Row

/-!
# Tables

The database is filled once, with a row of `files` for every entry and a row of `relations` for
every edge. It refuses rows that break a rule of the schema: only some columns may be empty, no two
files have the same number, no two relations have the same two numbers, and both of these belong to
files. A query looks at the relations that lead down from an entry, each joined with the file that
it leads to.

`Catalog.load` is `load`, `insertFile` and `insertRelation` are `INSERT_FILE` and `INSERT_RELATION`
under the constraints of `CREATE_TABLES`, and `Tables.join` is the join that `render_sql` writes.
-/

namespace TreeQuery

namespace Database

/-- The rows of the two tables in the order in which they came, each with its key. -/
structure Tables where
  files : Array (Int64 × List Value) := #[]
  relations : Array ((Int64 × Int64) × List Value) := #[]

/-- The first column that must not be empty and is. -/
def missing? (t : Table) (cells : List Value) : Option Field :=
  t.columns.find? fun f => !f.nullable && (t.cell cells f).isNull

namespace Tables

/-- Whether there is a file of a number. -/
def hasFile (t : Tables) (id : Int64) : Bool := t.files.any fun file => file.1 == id

/-- Whether there is a relation between two numbers. -/
def hasRelation (t : Tables) (ends : Int64 × Int64) : Bool :=
  t.relations.any fun relation => relation.1 == ends

/-- Puts in a row of `files`. It has to come with its number: the database is not asked to number
rows itself. -/
def insertFile (t : Tables) (cells : List Value) : Except Fault Tables :=
  match missing? .files cells, (Table.files.cell cells .fileId).integer? with
  | some f, _ => .error (.missingValue f.qualifiedName)
  | none, none => .error .notInteger
  | none, some id =>
    if t.hasFile id then .error (.duplicate [Field.fileId.qualifiedName])
    else .ok { t with files := t.files.push (id, cells) }

/-- Puts in a row of `relations`. -/
def insertRelation (t : Tables) (cells : List Value) : Except Fault Tables :=
  match missing? .relations cells, (Table.relations.cell cells .ancestorId).integer?,
    (Table.relations.cell cells .descendantId).integer? with
  | some f, _, _ => .error (.missingValue f.qualifiedName)
  | none, some ancestor, some descendant =>
    if t.hasRelation (ancestor, descendant) then
      .error (.duplicate [Field.ancestorId.qualifiedName, Field.descendantId.qualifiedName])
    else if t.hasFile ancestor && t.hasFile descendant then
      .ok { t with relations := t.relations.push ((ancestor, descendant), cells) }
    else .error .missingReference
  | none, _, _ => .error .missingReference

/-- The relations whose `ancestor_id` is a number, each joined with the files whose `file_id` is
its `descendant_id`. -/
def join (t : Tables) (root : Int64) : List Row :=
  (t.relations.toList.filter fun relation => relation.1.1 == root).flatMap fun relation =>
    (t.files.toList.filter fun file => file.1 == relation.1.2).map fun file =>
      ⟨file.2, relation.2⟩

end Tables

end Database

open Database

/-- The tables of a catalog. -/
def Catalog.load (c : Catalog) : Except Fault Tables := do
  let t ← c.store.toList.foldlM (fun t e => t.insertFile e.cells) {}
  c.closure.edges.foldlM (fun t e => t.insertRelation e.cells) t

end TreeQuery
