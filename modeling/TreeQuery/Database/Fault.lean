/-!
# Why the database refuses

Most faults are found while a request is prepared, before any row is read: names, functions and
their arguments, the places of aggregates. Others come up while rows are computed, and the last
three while the tables are filled.

A fault is what an `Engine` error carries. No function of the program gives one; those of
`Catalog.load` and `Database.answer` stand for those of the engine.
-/

namespace TreeQuery.Database

/-- A clause that lists terms by column number. -/
inductive TermClause where
  | groupBy
  | orderBy
  deriving DecidableEq, Repr

/-- Why a request has no answer. -/
inductive Fault where
  /-- A piece of the request is no expression. -/
  | unreadable (text : String)
  | unknownColumn (name : String)
  | unknownFunction (name : String)
  | argumentCount (function : String)
  | unknownCollation (name : String)
  /-- An aggregate stands where single rows are looked at. -/
  | misplacedAggregate
  | distinctArguments
  | rowValue
  | columnNumber (clause : TermClause) (count : Nat)
  | hugeHexadecimal (text : String)
  | notSupported (word : String)
  | notInteger
  | integerOverflow
  | tooBig
  | longPattern
  | badEscape
  | noMatchFunction
  /-- A row has no value in a column that must have one. -/
  | missingValue (column : String)
  /-- Two rows of a table have the same values in columns that tell its rows apart. -/
  | duplicate (columns : List String)
  /-- A row names a row of another table that is not there. -/
  | missingReference
  deriving DecidableEq, Repr

/-- The wording of a fault. -/
def Fault.message : Fault → String
  | unreadable text => s!"near \"{text}\": syntax error"
  | unknownColumn name => s!"no such column: {name}"
  | unknownFunction name => s!"no such function: {name}"
  | argumentCount function => s!"wrong number of arguments to function {function}()"
  | unknownCollation name => s!"no such collation sequence: {name}"
  | misplacedAggregate => "misuse of aggregate"
  | distinctArguments => "DISTINCT aggregates must have exactly one argument"
  | rowValue => "row value misused"
  | columnNumber .groupBy count => s!"GROUP BY term out of range - should be between 1 and {count}"
  | columnNumber .orderBy count => s!"ORDER BY term out of range - should be between 1 and {count}"
  | hugeHexadecimal text => s!"hex literal too big: {text}"
  | notSupported word => s!"not supported: {word}"
  | notInteger => "datatype mismatch"
  | integerOverflow => "integer overflow"
  | tooBig => "string or blob too big"
  | longPattern => "LIKE or GLOB pattern too complex"
  | badEscape => "ESCAPE expression must be a single character"
  | noMatchFunction => "unable to use function MATCH in the requested context"
  | missingValue column => s!"NOT NULL constraint failed: {column}"
  | duplicate columns => "UNIQUE constraint failed: " ++ ", ".intercalate columns
  | missingReference => "FOREIGN KEY constraint failed"

end TreeQuery.Database
