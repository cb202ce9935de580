import TreeQuery.Output.Json
import TreeQuery.Output.Table

/-!
# The formats of a result

`Format` is the type of this name and `Format.render` is `write_rows`.
-/

namespace TreeQuery.Output

/-- How results are printed. -/
inductive Format where
  | table
  | json
  deriving DecidableEq, Repr

namespace Format

/-- Every format once. -/
def list : List Format := [table, json]

/-- The name by which a format is chosen. -/
def name : Format → String
  | table => "table"
  | json => "json"

/-- The format of a name. -/
def ofName? (name : String) : Option Format := list.find? fun f => f.name == name

/-- A result as it is printed. -/
def render : Format → Database.Rows → String
  | table, rows => Output.table rows
  | json, rows => Output.json rows

end Format

end TreeQuery.Output
