import TreeQuery.Database.Value

/-!
# Results

The answer to a query: the names of its columns and its rows.

`Rows` is `RowSet`, with its `len`, `column_index` and `column`.
-/

namespace TreeQuery.Database

/-- Named columns and rows of values. -/
structure Rows where
  columns : List String
  rows : List (List Value) := []
  deriving Repr

namespace Rows

/-- How many rows there are. -/
def size (r : Rows) : Nat := r.rows.length

/-- The position of the first column of a name. -/
def columnIndex? (r : Rows) (name : String) : Option Nat :=
  r.columns.findIdx? (· == name)

/-- The values in the first column of a name. Rows that are too short have none. -/
def column? (r : Rows) (name : String) : Option (List Value) :=
  (r.columnIndex? name).map fun i => r.rows.filterMap (·[i]?)

end Rows

end TreeQuery.Database
