import TreeQuery.Database.Rows

/-!
# Results as a table

A line with the names of the columns, then one line for each row, the cells set apart by tabs.
Cells are written as they are: a tab or a line feed in a name or a text is not told apart from one
that sets cells or rows apart.

`table` is `write_table`.
-/

namespace TreeQuery.Output

open Database

/-- Cells as a line. -/
def tableLine (cells : List String) : String := "\t".intercalate cells ++ "\n"

/-- A result as lines. -/
def table (r : Rows) : String :=
  String.join (tableLine r.columns :: r.rows.map fun row => tableLine (row.map Value.display))

end TreeQuery.Output
