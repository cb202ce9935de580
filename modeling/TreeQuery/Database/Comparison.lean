import TreeQuery.Database.Cast
import TreeQuery.Schema

/-!
# Comparing values

Values of all kinds have one order: no value, then numbers, then texts, then bytes. Texts are
ordered by a collation. Before a comparison a text may be taken as a number or a number as text,
depending on the columns that are compared.

No function of the program is behind this module: it is part of what stands for the engine
(`Engine.ofTables`).
-/

namespace TreeQuery.Database

/-! ## Collations -/

/-- An order of texts. -/
inductive Collation where
  /-- By characters. -/
  | binary
  /-- The same for a letter of the Latin alphabet in both cases. -/
  | noCase
  /-- Spaces at the end do not count. -/
  | rightTrim
  deriving DecidableEq, Repr

namespace Collation

/-- Every collation once. -/
def list : List Collation := [binary, noCase, rightTrim]

/-- The name of a collation. -/
def name : Collation → String
  | binary => "binary"
  | noCase => "nocase"
  | rightTrim => "rtrim"

/-- The collation of a name, in any case of its letters. -/
def ofName? (name : String) : Option Collation :=
  list.find? fun c => c.name == name.map Char.toLower

/-- What of a text counts. -/
def key : Collation → String → String
  | binary, s => s
  | noCase, s => s.map Char.toLower
  | rightTrim, s => String.ofList (s.toList.reverse.dropWhile (· == ' ')).reverse

/-- The order of two texts. -/
def compare (c : Collation) (a b : String) : Ordering := Ord.compare (c.key a) (c.key b)

end Collation

/-! ## Numbers -/

/-- The order of two floating-point numbers. -/
def compareReals (x y : Float) : Ordering :=
  if x < y then .lt else if x == y then .eq else .gt

/-- The order of a whole and a floating-point number, exact for numbers of any size. -/
def compareMixed (n : Int64) (x : Float) : Ordering :=
  if x < Int64.minValue.toFloat then .gt
  else if Int64.maxValue.toFloat ≤ x then .lt
  else (Ord.compare n x.toInt64).then (compareReals n.toFloat x)

/-! ## Values -/

namespace Value

/-- The place of a kind of value in the order. -/
def rank : Value → Nat
  | null => 0
  | integer _ | real _ => 1
  | text _ => 2
  | blob _ => 3

/-- The order of two values. -/
def compare (c : Collation) : Value → Value → Ordering
  | integer m, integer n => Ord.compare m n
  | integer m, real x => compareMixed m x
  | real x, integer n => (compareMixed n x).swap
  | real x, real y => compareReals x y
  | text a, text b => c.compare a b
  | blob a, blob b => Ord.compare a b
  | a, b => Ord.compare a.rank b.rank

/-- Whether two values have the same place in the order. -/
def same (c : Collation) (a b : Value) : Bool := a.compare c b == .eq

end Value

/-! ## Rules of comparison -/

/-- How two operands are compared. -/
structure ComparisonRule where
  /-- What the operands are taken as first. -/
  affinity? : Option Affinity := none
  collation : Collation := .binary
  deriving DecidableEq, Repr

/-- What two operands with these affinities are taken as: numbers if one of two columns holds
numbers, texts only beside something that is no column. -/
def Affinity.common : Option Affinity → Option Affinity → Option Affinity
  | some a, some b => if a = .integer ∨ b = .integer then some .integer else none
  | some a, none => some a
  | none, b => b

/-- Whether a value is a text. -/
def Value.isText : Value → Bool
  | text _ => true
  | _ => false

namespace ComparisonRule

/-- The operands as they are compared. -/
def prepare (r : ComparisonRule) (a b : Value) : Value × Value :=
  match r.affinity? with
  | none => (a, b)
  | some .integer => (a.asNumeric, b.asNumeric)
  | some .text => if a.isText || b.isText then (a.asText, b.asText) else (a, b)

/-- The order of two operands, missing values included. -/
def order (r : ComparisonRule) (a b : Value) : Ordering :=
  let (a, b) := r.prepare a b
  a.compare r.collation b

/-- The order of two operands, if neither is missing. -/
def compare? (r : ComparisonRule) (a b : Value) : Option Ordering :=
  if a.isNull || b.isNull then none else some (r.order a b)

/-- Whether two operands are equal, if neither is missing. -/
def equal? (r : ComparisonRule) (a b : Value) : Option Bool :=
  (r.compare? a b).map (· == .eq)

/-- Whether a value is one of several, if that can be said. -/
def among? (r : ComparisonRule) (a : Value) : List Value → Option Bool
  | [] => some false
  | b :: rest =>
    match r.equal? a b, among? r a rest with
    | some true, _ => some true
    | _, some true => some true
    | none, _ => none
    | some false, later => later

end ComparisonRule

end TreeQuery.Database
