import TreeQuery.Database.Plan
import TreeQuery.Database.Tables

/-!
# Engines

A database engine takes in a catalog and answers requests about it. What it answers may depend on
more than the two, on random numbers or the time of day, and so an engine has states: each of its
answers comes with the state that it leaves. Nothing outside an engine looks into them.

`Engine` is `RelationalEngine` with its `execute`, and `SqliteEngine::load` with it.
`Engine.ofTables` stands for the engine where the program is run: it answers what can be told from
tables alone.
-/

namespace TreeQuery.Database

/-- A database engine whose states are `σ`. -/
structure Engine (σ : Type) where
  /-- Takes in a catalog. -/
  load : Catalog → StateM σ (Except Fault Unit)
  /-- Answers a request about the catalog. -/
  execute : Query.Request → StateM σ (Except Fault Rows)

/-- The engine that keeps the tables of a catalog and nothing else. -/
def Engine.ofTables : Engine Tables where
  load c := fun _ =>
    match c.load with
    | .ok tables => (.ok (), tables)
    | .error fault => (.error fault, {})
  execute r := fun tables => (answer r (tables.join r.root.key), tables)

end TreeQuery.Database
