import TreeQuery.Database.ExprReading
import TreeQuery.Database.Resolution
import TreeQuery.Database.Rows
import TreeQuery.Query.Request

/-!
# Plans

A plan is a request whose pieces have been read and whose names have been looked up. Whatever can
be wrong with a request without a look at any row is found here.

No function of the program is behind this module: it is part of what stands for the engine
(`Engine.ofTables`).
-/

namespace TreeQuery.Database

open Query

/-- A column of the result. -/
structure OutputColumn where
  name : String
  content : Resolved

/-- What rows are sorted by. -/
structure SortKey where
  term : Term
  collation : Collation
  descending : Bool := false

/-- Whether values are told apart, and sorted, by the number of the row. -/
def SortKey.isNumber (k : SortKey) : Bool :=
  k.term == .field .descendantId && k.collation == .binary

/-- A request that is ready to be run. -/
structure Plan where
  /-- The names of the columns. -/
  names : List String
  /-- The columns, each with the collation that tells its values apart. -/
  columns : List (Term × Collation)
  distinct : Bool
  predicate : Term
  groupBy : List SortKey
  having : Term
  orderBy : List SortKey
  limit : Term
  offset : Term
  /-- Whether the rows of the result are groups of rows. -/
  grouped : Bool

/-- The name of a column without an alias: that of the column of the schema that it is, or its
text. -/
def nameOf (text : String) : Expr → Resolved → String
  | .name _, ⟨.field f, _, _, _⟩ => f.name
  | .qualified _ _, ⟨.field f, _, _, _⟩ => f.name
  | _, _ => text

namespace Plan

/-- A column of the result. -/
def outputColumn (p : Projection) : Except Fault OutputColumn := do
  let x ← Expr.ofText p.expr
  let r ← x.resolve {}
  return ⟨p.alias?.getD (nameOf p.expr x r), r⟩

/-- The columns that have an alias. -/
def aliases (projections : List Projection) (columns : List OutputColumn) :
    List (String × Resolved) :=
  (projections.zip columns).filterMap fun (p, c) => p.alias?.map (·, c.content)

/-- The column of the result with a number, counted from 1. -/
def numbered (clause : TermClause) (columns : List OutputColumn) (n : Int) :
    Except Fault Resolved :=
  match (if 1 ≤ n then columns[n.toNat - 1]? else none) with
  | some c => .ok c.content
  | none => .error (.columnNumber clause columns.length)

/-- COLLATE put around a term as it stood around the expression. -/
def collated : Expr → Resolved → Resolved
  | .collate _ collation, r => { r with collation? := some collation, stated := true }
  | _, r => r

/-- What rows are grouped by. A number names a column of the result. -/
def groupKey (scope : Scope) (columns : List OutputColumn) (text : String) :
    Except Fault SortKey := do
  let x ← Expr.ofText text
  let r ← match x.withoutCollate.number? with
    | some n => collated x <$> numbered .groupBy columns n
    | none => x.resolve scope
  if r.term.hasAggregate then throw .misplacedAggregate
  return { term := r.term, collation := ← r.collation }

/-- What rows are sorted by. A bare name is first looked for among the aliases, and a number names
a column of the result. -/
def orderKey (scope : Scope) (columns : List OutputColumn) (text : String) :
    Except Fault SortKey := do
  let (x, descending) ← orderTermOfText text
  let alias? := match x.withoutCollate with
    | .name n => scope.alias? n.text
    | _ => none
  let r ← match alias?, x.withoutCollate.number? with
    | some r, _ => pure (collated x r)
    | none, some n => collated x <$> numbered .orderBy columns n
    | none, none => x.resolve scope
  return { term := r.term, collation := ← r.collation, descending }

/-- A term that may be missing. -/
def optionalTerm (resolve : Expr → Except Fault Resolved) (absent : Value)
    (text? : Option String) : Except Fault Term := do
  match text? with
  | none => return .value absent
  | some text => return (← resolve (← Expr.ofText text)).term

/-- The keys of GROUP BY. Groups are formed in the direction of ORDER BY if that has as many terms,
which shows among groups that ORDER BY does not tell apart. -/
def directed (groupBy orderBy : List SortKey) : List SortKey :=
  if groupBy.length = orderBy.length then
    groupBy.zipWith (fun g o => { g with descending := o.descending }) orderBy
  else groupBy

/-- The plan of a request. -/
def ofRequest (r : Request) : Except Fault Plan := do
  if r.sql.contains '\x00' then throw (.unreadable r.sql)
  let columns ← r.columns.mapM outputColumn
  let scope : Scope := { aliases := aliases r.columns columns }
  let groupBy ← r.groupBy.mapM (groupKey scope columns)
  let grouped := !groupBy.isEmpty || columns.any fun c => c.content.term.hasAggregate
  let orderBy ← r.orderBy.mapM (orderKey scope columns)
  unless grouped do
    if orderBy.any fun k => k.term.hasAggregate then throw .misplacedAggregate
  let outside : Scope := { columns := false }
  return {
    names := columns.map OutputColumn.name
    columns := ← columns.mapM fun c => do
      return (c.content.term, ← if r.distinct then c.content.collation else pure .binary)
    distinct := r.distinct
    predicate := ← optionalTerm (Expr.resolveRowwise scope) (.ofBool true) r.predicate
    groupBy := directed groupBy orderBy
    having := ← optionalTerm (Expr.resolve scope) (.ofBool true) r.having
    orderBy
    limit := ← optionalTerm (Expr.resolveRowwise outside) (.integer (-1)) r.limit
    offset := ← optionalTerm (Expr.resolveRowwise outside) (.integer 0) r.offset
    grouped }

/-! ## Running -/

/-- A row of the result and the values that it is sorted by. -/
structure Output where
  cells : List Value
  keys : List Value

/-- The order of two lists of values by some keys, the first that differ counting. -/
def compareKeys : List SortKey → List Value → List Value → Ordering
  | k :: ks, a :: as, b :: bs =>
    let o := a.compare k.collation b
    (if k.descending then o.swap else o).then (compareKeys ks as bs)
  | _, _, _ => .eq

/-- Whether two rows of the result show the same. -/
def sameCells : List Collation → List Value → List Value → Bool
  | c :: cs, a :: as, b :: bs => a.same c b && sameCells cs as bs
  | _, _, _ => true

/-- Whether a row satisfies the predicate. -/
def admits (p : Plan) (row : Row) : Except Fault Bool := do
  return (← p.predicate.eval { row? := some row }).truth? = some true

/-- The aggregates of a plan. -/
def aggregates (p : Plan) : List Term :=
  Term.aggregatesOfAll (p.columns.map Prod.fst ++ p.orderBy.map SortKey.term ++ [p.having])

/-- The row of a group that columns outside of aggregates are read from: the first, unless there
are minima or maxima to pick one. -/
def barePosition (p : Plan) (group : List Row) : Except Fault Nat := do
  let pickers := p.aggregates.eraseDups.filterMap fun t =>
    match t with
    | .aggregate f c distinct (arg :: _) =>
      if f.picksRow then some (arg, { f, collation := c, distinct }) else none
    | _ => none
  let values ← group.mapM fun row => pickers.mapM fun (arg, _) => arg.eval { row? := some row }
  return Aggregate.pickedPosition (pickers.map Prod.snd) values

/-- Whether all rows are one group. -/
def isOneGroup (p : Plan) : Bool := p.grouped && p.groupBy.isEmpty

/-- The row of the result at a point, if the group satisfies HAVING. A group that holds all rows is
not sorted by anything. -/
def output (p : Plan) (point : Point) : Except Fault (Option Output) := do
  if (← p.having.eval point).truth? = some true then
    let cells ← p.columns.mapM fun c => c.1.eval point
    let keys ← if p.isOneGroup then pure [] else p.orderBy.mapM fun k => k.term.eval point
    return some ⟨cells, keys⟩
  else return none

/-- What becomes of a row that stands for itself. -/
def rowOutput (p : Plan) (row : Row) : Except Fault (Option Output) := do
  if ← p.admits row then p.output { row? := some row } else return none

/-- What becomes of a group of rows. All its aggregates are computed, whether or not HAVING lets
the group through. -/
def groupOutput (p : Plan) (group : List Row) : Except Fault (Option Output) := do
  let point : Point := { row? := group[← p.barePosition group]?, group }
  let _ ← p.aggregates.mapM fun t => t.eval point
  p.output point

/-- The groups of some rows in the order of their keys. Without keys there is one group, which may
be empty. If the number of the row is among the keys every row is a group, and stays in its
place. -/
def groups (p : Plan) (rows : List Row) : Except Fault (List (List Row)) := do
  let rows ← rows.filterM p.admits
  if p.groupBy.isEmpty then return [rows]
  let keyed ← rows.mapM fun row => do
    return (← p.groupBy.mapM fun k => k.term.eval { row? := some row }, row)
  let sorted :=
    if p.groupBy.any SortKey.isNumber then keyed
    else keyed.mergeSort fun a b => compareKeys p.groupBy a.1 b.1 != .gt
  let together := sorted.splitBy fun a b => compareKeys p.groupBy a.1 b.1 == .eq
  return together.map (List.map Prod.snd)

/-- Whether the rows are looked at from the last one to the first: where they are to be sorted that
way. -/
def isBackward (p : Plan) : Bool := p.orderBy.head?.any fun k => k.isNumber && k.descending

/-- What may become a row of the result, in the order in which it is looked at. -/
def candidates (p : Plan) (rows : List Row) :
    Except Fault (List (Except Fault (Option Output))) := do
  if p.grouped then return (← p.groups rows).map p.groupOutput
  else return (if p.isBackward then rows.reverse else rows).map p.rowOutput

/-- Whether a row of the result has been shown before. -/
def repeats (p : Plan) (seen : List Output) (o : Output) : Bool :=
  p.distinct && seen.any fun s => sameCells (p.columns.map Prod.snd) s.cells o.cells

/-- The rows of the result up to a number of them, if there is one. Candidates behind that number
are not looked at, whatever is wrong with them. The rows found so far come last first. -/
def gather (p : Plan) (want? : Option Nat) (seen : List Output) :
    List (Except Fault (Option Output)) → Except Fault (List Output)
  | [] => .ok seen.reverse
  | candidate :: rest =>
    if want? = some 0 then .ok seen.reverse
    else do
      match ← candidate with
      | some o =>
        if p.repeats seen o then gather p want? seen rest
        else gather p (want?.map (· - 1)) (o :: seen) rest
      | none => gather p want? seen rest

/-- How many rows LIMIT lets through and OFFSET skips. With no rows let through OFFSET is not
looked at. -/
def bounds (p : Plan) : Except Fault (Option Nat × Nat) := do
  let limit ← whole (← p.limit.eval {})
  if limit = 0 then return (some 0, 0)
  let offset ← whole (← p.offset.eval {})
  return (if limit < 0 then none else some limit.toNat, offset.toNat)
where
  /-- The whole number that a bound is. -/
  whole (v : Value) : Except Fault Int :=
    match v.exactInteger? with
    | some n => .ok n.toInt
    | none => .error .notInteger

/-- The answer to a plan over some rows. -/
def run (p : Plan) (rows : List Row) : Except Fault Rows := do
  let (limit?, offset) ← p.bounds
  if limit? = some 0 then return ⟨p.names, []⟩
  let want? := if p.orderBy.isEmpty then limit?.map (offset + ·) else none
  let outputs ← p.gather want? [] (← p.candidates rows)
  let sorted := outputs.mergeSort fun a b => compareKeys p.orderBy a.keys b.keys != .gt
  let kept := sorted.drop offset
  let shown := match limit? with
    | some n => kept.take n
    | none => kept
  return ⟨p.names, shown.map Output.cells⟩

end Plan

/-- The answer to a request over some rows. -/
def answer (r : Query.Request) (rows : List Row) : Except Fault Rows := do
  (← Plan.ofRequest r).run rows

end TreeQuery.Database
