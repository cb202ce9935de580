import TreeQuery.Database.Comparison
import TreeQuery.Database.Fault

/-!
# Aggregates

The functions of all rows of a group. Each is given the values of its arguments in every row, in
the order of the rows. Rows in which the first argument is missing do not count, except for
`count` without an argument.

No function of the program is behind this module: it is part of what stands for the engine
(`Engine.ofTables`).
-/

namespace TreeQuery.Database

/-- The functions of groups. -/
inductive Aggregate where
  | count | sum | total | average | minimum | maximum | groupConcat
  deriving DecidableEq, Repr

namespace Aggregate

/-- Every aggregate once. -/
def list : List Aggregate := [count, sum, total, average, minimum, maximum, groupConcat]

/-- The name of an aggregate. -/
def name : Aggregate → String
  | count => "count" | sum => "sum" | total => "total" | average => "avg"
  | minimum => "min" | maximum => "max" | groupConcat => "group_concat"

/-- Whether an aggregate takes so many arguments. -/
def takes : Aggregate → Nat → Bool
  | count, n => n ≤ 1
  | groupConcat, n => n == 1 || n == 2
  | _, n => n == 1

/-- Whether an aggregate picks a row of its group. -/
def picksRow : Aggregate → Bool
  | minimum | maximum => true
  | _ => false

/-! ## Sums -/

/-- A running sum. It is exact as long as only whole numbers come and the sum fits; from then on
it is a floating-point number with a second one for what rounding lost. -/
structure Sum where
  whole? : Option Int64 := some 0
  high : Float := 0
  low : Float := 0
  /-- Whether whole numbers alone have become too large. -/
  overflowed : Bool := false
  count : Nat := 0

namespace Sum

/-- Adds a floating-point number and keeps what rounding loses. -/
def addReal (s : Sum) (x : Float) : Sum :=
  let t := s.high + x
  let lost := if x.abs < s.high.abs then (s.high - t) + x else (x - t) + s.high
  { s with high := t, low := s.low + lost }

/-- Numbers below this are added in one piece. -/
def pieceLimit : Nat := 4503599627370496

/-- A large whole number in two pieces without a loss, a small one as it is and zero. -/
def pieces (n : Int64) : Float × Float :=
  if n.toInt.natAbs < pieceLimit then (n.toFloat, 0)
  else
    let small := Int64.ofInt (n.toInt.tmod 16384)
    ((n - small).toFloat, small.toFloat)

/-- Adds a whole number. -/
def addInteger (s : Sum) (n : Int64) : Sum :=
  let (large, small) := pieces n
  if n.toInt.natAbs < pieceLimit then s.addReal large else (s.addReal large).addReal small

/-- The sum so far as a floating-point number to add to. -/
def approximate (s : Sum) (n : Int64) : Sum :=
  let (large, small) := pieces n
  { s with whole? := none, high := large, low := small }

/-- Adds a value that is not missing. -/
def add (s : Sum) (v : Value) : Sum :=
  let s := { s with count := s.count + 1 }
  match s.whole?, v.asNumeric with
  | some n, .integer m =>
    let r := n.toInt + m.toInt
    if Int64.minValue.toInt ≤ r ∧ r ≤ Int64.maxValue.toInt then
      { s with whole? := some (.ofInt r) }
    else { (s.approximate n).addInteger m with overflowed := true }
  | some n, w => (s.approximate n).addReal w.toReal
  | none, .integer m => s.addInteger m
  | none, w => { s.addReal w.toReal with overflowed := false }

/-- The sum as a floating-point number. -/
def toReal (s : Sum) : Float :=
  match s.whole? with
  | some n => n.toFloat
  | none => if s.low.isFinite then s.high + s.low else s.high

end Sum

/-- The sum of some values that are not missing. -/
def sumOf (values : List Value) : Sum := values.foldl Sum.add {}

/-! ## Results -/

/-- The extreme of some values, none if there are none. -/
def extreme (better : Ordering) (c : Collation) : List Value → Value
  | [] => .null
  | v :: vs => vs.foldl (fun best w => if w.compare c best == better then w else best) v

/-- Texts put together, each but the first behind its separator. -/
def joinTexts : List (String × String) → Value
  | [] => .null
  | (first, _) :: rest =>
    .text (String.join (first :: rest.map fun (s, separator) => separator ++ s))

/-- The text of a row and the separator before it. -/
def textAndSeparator : List Value → String × String
  | [] => ("", "")
  | [v] => (v.toText?.getD "", ",")
  | v :: separator :: _ => (v.toText?.getD "", separator.toText?.getD "")

/-- The result for a group whose rows have these argument values. -/
def apply (f : Aggregate) (c : Collation) (rows : List (List Value)) : Except Fault Value :=
  let counted := rows.filter fun row => !(row.head?.getD (.integer 0)).isNull
  let values := counted.filterMap List.head?
  match f with
  | count => .ok (.integer (.ofNat counted.length))
  | sum =>
    let s := sumOf values
    if s.count = 0 then .ok .null
    else
      match s.whole? with
      | some n => .ok (.integer n)
      | none => if s.overflowed then .error .integerOverflow else .ok (.ofReal s.toReal)
  | total => .ok (.ofReal (sumOf values).toReal)
  | average =>
    let s := sumOf values
    .ok (if s.count = 0 then .null else .ofReal (s.toReal / s.count.toFloat))
  | minimum => .ok (extreme .lt c values)
  | maximum => .ok (extreme .gt c values)
  | groupConcat => .ok (joinTexts (counted.map textAndSeparator))

/-! ## Picked rows -/

/-- A minimum or maximum on its way through the rows of a group. -/
structure Picker where
  f : Aggregate
  collation : Collation
  distinct : Bool
  best : Value := .null
  seen : List Value := []

namespace Picker

/-- Whether a value replaces the best one. -/
def improves (k : Picker) (v : Value) : Bool :=
  k.best.isNull || v.compare k.collation k.best == (if k.f = .minimum then .lt else .gt)

/-- What a value does: it picks its row, or leaves the one picked before. A value that DISTINCT
leaves out does what the one before it did, which is told by `picks`. -/
def step (k : Picker) (picks : Bool) (v : Value) : Picker × Bool :=
  if k.distinct && k.seen.any (v.same k.collation) then (k, picks)
  else
    let k := { k with seen := v :: k.seen }
    if v.isNull then (k, k.best.isNull)
    else if k.improves v then ({ k with best := v }, true)
    else (k, false)

/-- What the values of a row do one after the other; the last has the say. -/
def stepAll : List Picker → Bool → List Value → List Picker × Bool
  | k :: ks, picks, v :: vs =>
    let (k, picks) := k.step picks v
    let (ks, picks) := stepAll ks picks vs
    (k :: ks, picks)
  | ks, picks, _ => (ks, picks)

/-- The position of the row that is picked in the end. -/
def position : List Picker → Bool → (chosen current : Nat) → List (List Value) → Nat
  | _, _, chosen, _, [] => chosen
  | ks, picks, chosen, current, values :: rest =>
    let (ks, picks) := stepAll ks picks values
    position ks picks (if picks then current else chosen) (current + 1) rest

end Picker

/-- The position of the row that minima and maxima pick from their values in every row, the first
row if there are none of them. -/
def pickedPosition (pickers : List Picker) (values : List (List Value)) : Nat :=
  if pickers.isEmpty then 0 else Picker.position pickers true 0 0 values

end Aggregate

end TreeQuery.Database
