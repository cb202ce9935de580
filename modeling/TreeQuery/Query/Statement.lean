/-!
# Statements

A statement names the directory whose entries it asks about and holds a piece of the language in
every clause: its columns, its condition, and so on. `Statement α` leaves open what such a piece
is; a reader of statements produces the words of each piece, and everything after it works on
their text.

`Statement` is `SelectStatement` and `Column` is `ResultColumn`, with its `fmt`.
-/

namespace TreeQuery.Query

/-- A column of the result. -/
inductive Column (α : Type) where
  /-- `*`, every standard column. -/
  | wildcard
  | expr (piece : α) (alias? : Option String)
  deriving DecidableEq, Repr

/-- A SELECT statement with pieces of type `α`. -/
structure Statement (α : Type) where
  /-- The directory that FROM names, as it is written there. -/
  path : String := ""
  distinct : Bool := false
  columns : List (Column α) := []
  predicate : Option α := none
  groupBy : List α := []
  having : Option α := none
  orderBy : List α := []
  limit : Option α := none
  offset : Option α := none
  deriving DecidableEq, Repr

variable {α β : Type}

/-- The same column with its piece changed. -/
def Column.map (f : α → β) : Column α → Column β
  | wildcard => wildcard
  | expr piece alias? => expr (f piece) alias?

/-- The pieces of a column. -/
def Column.pieces : Column α → List α
  | wildcard => []
  | expr piece _ => [piece]

namespace Statement

/-- The same statement with every piece changed. -/
def map (f : α → β) (s : Statement α) : Statement β where
  path := s.path
  distinct := s.distinct
  columns := s.columns.map (Column.map f)
  predicate := s.predicate.map f
  groupBy := s.groupBy.map f
  having := s.having.map f
  orderBy := s.orderBy.map f
  limit := s.limit.map f
  offset := s.offset.map f

/-- Every piece of a statement. -/
def pieces (s : Statement α) : List α :=
  s.columns.flatMap Column.pieces ++ s.predicate.toList ++ s.groupBy ++ s.having.toList ++
    s.orderBy ++ s.limit.toList ++ s.offset.toList

/-- Whether the statement is distinct, as a word before its columns. -/
def distinctWord (s : Statement α) : String :=
  if s.distinct then "DISTINCT " else ""

end Statement

/-- A column as a reader may be shown it: `*`, or its text and after AS its alias. -/
def Column.display : Column String → String
  | wildcard => "*"
  | expr text none => text
  | expr text (some name) => text ++ " AS " ++ name

end TreeQuery.Query
