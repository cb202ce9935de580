import TreeQuery.Database.Aggregate
import TreeQuery.Database.Function
import TreeQuery.Database.Operator
import TreeQuery.Database.Row

/-!
# Terms

A term is an expression whose names have been looked up and whose comparisons have their rules.
`Term.eval` gives its value at a point of a query: a row, and the rows of the group that an
aggregate is taken over.

No function of the program is behind this module: it is part of what stands for the engine
(`Engine.ofTables`).
-/

namespace TreeQuery.Database

/-- An expression that is ready to be evaluated. -/
inductive Term where
  | value (v : Value)
  | field (f : Field)
  | unary (op : UnaryOp) (x : Term)
  | binary (op : BinaryOp ComparisonRule) (x y : Term)
  | between (low high : ComparisonRule) (x a b : Term)
  | inList (rule : ComparisonRule) (x : Term) (items : List Term)
  | caseWhen (branches : List (Term × Term)) (fallback : Term)
  | call (f : Function) (collation : Collation) (args : List Term)
  | aggregate (f : Aggregate) (collation : Collation) (distinct : Bool) (args : List Term)
  deriving BEq

/-- Where a term is evaluated. -/
structure Point where
  /-- The row that columns are read from; an empty group has none. -/
  row? : Option Row := none
  /-- The rows that aggregates are taken over. -/
  group : List Row := []

/-- The first of every set of rows of arguments whose first arguments are the same. -/
def distinctArguments (c : Collation) (rows : List (List Value)) : List (List Value) :=
  rows.foldl (fun kept row => if kept.any (sameFirst row) then kept else kept ++ [row]) []
where
  /-- Whether two rows have the same first argument. -/
  sameFirst : List Value → List Value → Bool
    | a :: _, b :: _ => a.same c b
    | _, _ => false

namespace Term

mutual

/-- The value of a term. -/
def eval (p : Point) : Term → Except Fault Value
  | value v => .ok v
  | field f => .ok ((p.row?.map fun row => row.value f).getD .null)
  | unary op x => do return op.apply (← eval p x)
  | binary op x y => do return op.apply (← eval p x) (← eval p y)
  | between low high x a b => do
    let v ← eval p x
    let above := (low.compare? v (← eval p a)).map Relation.ge.holds
    let below := (high.compare? v (← eval p b)).map Relation.le.holds
    return ofTruth (bothTrue above below)
  | inList rule x items => do
    let v ← eval p x
    return ofTruth (rule.among? v (← (evalAll p items).mapM id))
  | caseWhen branches fallback => evalBranches p branches (eval p fallback)
  | call f collation args => f.apply collation (evalAll p args)
  | aggregate f collation distinct args => do
    let rows ← p.group.mapM fun row => (evalAll { row? := some row } args).mapM id
    f.apply collation (if distinct then distinctArguments collation rows else rows)

/-- The values of several terms, each by itself. -/
def evalAll (p : Point) : List Term → List (Except Fault Value)
  | [] => []
  | t :: ts => eval p t :: evalAll p ts

/-- The result of the first branch whose condition holds. -/
def evalBranches (p : Point) : List (Term × Term) → Except Fault Value → Except Fault Value
  | [], fallback => fallback
  | (condition, result) :: rest, fallback => do
    if (← eval p condition).truth? = some true then eval p result
    else evalBranches p rest fallback

end

mutual

/-- The aggregates in a term, from left to right, those inside other aggregates left out. -/
def aggregates : Term → List Term
  | value _ | field _ => []
  | unary _ x => x.aggregates
  | binary _ x y => x.aggregates ++ y.aggregates
  | between _ _ x a b => x.aggregates ++ a.aggregates ++ b.aggregates
  | inList _ x items => x.aggregates ++ aggregatesOfAll items
  | caseWhen branches fallback => aggregatesOfBranches branches ++ fallback.aggregates
  | call _ _ args => aggregatesOfAll args
  | aggregate f collation distinct args => [aggregate f collation distinct args]

/-- The aggregates in several terms. -/
def aggregatesOfAll : List Term → List Term
  | [] => []
  | t :: ts => t.aggregates ++ aggregatesOfAll ts

/-- The aggregates in the branches of a CASE. -/
def aggregatesOfBranches : List (Term × Term) → List Term
  | [] => []
  | (condition, result) :: rest =>
    condition.aggregates ++ result.aggregates ++ aggregatesOfBranches rest

end

/-- Whether there is an aggregate in a term. -/
def hasAggregate (t : Term) : Bool := !t.aggregates.isEmpty

end Term

end TreeQuery.Database
