import TreeQuery.Entry.Id
import TreeQuery.Query.Statement
import TreeQuery.Schema
import TreeQuery.Text.Quoted

/-!
# Requests

A request is what a statement asks of the database once its path has been looked up: the entry at
the root of the rows, columns in the place of `*`, and every other piece as it was written.
`Request.sql` writes it as one SELECT over the join of the two tables. The root does not appear
there; it is bound to the parameter `?1`.

`Request` is `EngineRequest`, `Statement.request` is what `rewrite` does when it has looked up the
path, and `Request.sql` is `render_sql`.
-/

namespace TreeQuery.Query

/-- One column of the result: an expression and the name it is given. -/
structure Projection where
  expr : String
  alias? : Option String := none
  deriving DecidableEq, Repr

/-- What is asked of the database. -/
structure Request where
  distinct : Bool := false
  columns : List Projection
  /-- The entry at and below which the rows lie. -/
  root : EntryId
  predicate : Option String := none
  groupBy : List String := []
  having : Option String := none
  orderBy : List String := []
  limit : Option String := none
  offset : Option String := none
  deriving DecidableEq

/-- The projection of a standard column. -/
def Projection.ofField (f : Field) : Projection := ⟨f.qualifiedName, some f.name⟩

/-- The projections that a column stands for. -/
def Column.projections : Column String → List Projection
  | wildcard => Field.standard.map .ofField
  | expr text alias? => [⟨text, alias?⟩]

/-- The request of a statement whose path is that of an entry. -/
def Statement.request (s : Statement String) (root : EntryId) : Request where
  distinct := s.distinct
  columns := s.columns.flatMap Column.projections
  root := root
  predicate := s.predicate
  groupBy := s.groupBy
  having := s.having
  orderBy := s.orderBy
  limit := s.limit
  offset := s.offset

/-! ## SQL -/

/-- A projection with its name between double quotes. -/
def Projection.sql (p : Projection) : String :=
  match p.alias? with
  | some name => p.expr ++ " AS " ++ Text.quoteName name
  | none => p.expr

namespace Request

/-- The rows at and below the entry that is bound to `?1`. -/
def source : String :=
  " FROM files JOIN relations ON files.file_id = relations.descendant_id" ++
    " WHERE relations.ancestor_id = ?1"

/-- A clause of one piece, if it is there. -/
def optionalClause (lead : String) (piece? : Option String) (tail : String) : String :=
  match piece? with
  | some piece => lead ++ piece ++ tail
  | none => ""

/-- A clause of several pieces, if there are any. -/
def listClause (lead : String) : List String → String
  | [] => ""
  | pieces => lead ++ ", ".intercalate pieces

/-- The request as one SELECT. -/
def sql (r : Request) : String :=
  "SELECT " ++ (if r.distinct then "DISTINCT " else "") ++
    ", ".intercalate (r.columns.map Projection.sql) ++ source ++
    optionalClause " AND (" r.predicate ")" ++
    listClause " GROUP BY " r.groupBy ++
    optionalClause " HAVING " r.having "" ++
    listClause " ORDER BY " r.orderBy ++
    optionalClause " LIMIT " r.limit "" ++
    optionalClause " OFFSET " r.offset ""

end Request

end TreeQuery.Query
