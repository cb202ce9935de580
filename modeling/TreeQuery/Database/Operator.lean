import TreeQuery.Database.Comparison

/-!
# Operators

What the operators of an expression do with values. A missing operand makes the result missing,
except where AND and OR are decided by the other operand, and for IS.

No function of the program is behind this module: it is part of what stands for the engine
(`Engine.ofTables`).
-/

namespace TreeQuery.Database

/-- The operators of arithmetic. -/
inductive Arithmetic where
  | add | subtract | multiply | divide | remainder
  deriving DecidableEq, Repr

/-- The operators on bits. -/
inductive Bitwise where
  | and | or | shiftLeft | shiftRight
  deriving DecidableEq, Repr

/-- The comparisons. -/
inductive Relation where
  | eq | ne | lt | le | gt | ge
  deriving DecidableEq, Repr

namespace Arithmetic

/-- The result on whole numbers, without a bound; dividing by zero has none. -/
def onIntegers (op : Arithmetic) (m n : Int) : Option Int :=
  match op with
  | add => some (m + n)
  | subtract => some (m - n)
  | multiply => some (m * n)
  | divide => if n = 0 then none else some (m.tdiv n)
  | remainder => if n = 0 then none else some (m.tmod n)

/-- The result on floating-point numbers; dividing by zero has none. -/
def onReals (op : Arithmetic) (x y : Float) : Value :=
  match op with
  | add => .ofReal (x + y)
  | subtract => .ofReal (x - y)
  | multiply => .ofReal (x * y)
  | divide => if y == 0 then .null else .ofReal (x / y)
  | remainder => .null

/-- Whether a cell can hold a whole number. -/
def fits (n : Int) : Bool := Int64.minValue.toInt ≤ n && n ≤ Int64.maxValue.toInt

/-- The result on values. Whole numbers give a whole number unless it is too large. -/
def apply (op : Arithmetic) (a b : Value) : Value :=
  if a.isNull || b.isNull then .null
  else
    match a.toNumber, b.toNumber with
    | .integer m, .integer n =>
      match op.onIntegers m.toInt n.toInt with
      | none => .null
      | some r => if fits r then .integer (.ofInt r) else op.onReals m.toFloat n.toFloat
    | _, _ =>
      if op = .remainder then
        match onIntegers .remainder a.toInteger.toInt b.toInteger.toInt with
        | none => .null
        | some r => .ofReal (Int64.ofInt r).toFloat
      else op.onReals a.toReal b.toReal

end Arithmetic

namespace Bitwise

/-- A shift to the left, or to the right by a negative amount. Bits that leave are lost, and the
sign comes in at the left. -/
def shift (n : Int) (amount : Int) : Int64 :=
  if 0 ≤ amount then .ofInt (n <<< (min amount 64).toNat)
  else .ofInt (n >>> (min (-amount) 64).toNat)

/-- The result on values. -/
def apply (op : Bitwise) (a b : Value) : Value :=
  if a.isNull || b.isNull then .null
  else
    let m := a.toInteger
    let n := b.toInteger
    .integer <| match op with
      | and => m &&& n
      | or => m ||| n
      | shiftLeft => shift m.toInt n.toInt
      | shiftRight => shift m.toInt (-n.toInt)

end Bitwise

/-- Whether an order satisfies a comparison. -/
def Relation.holds : Relation → Ordering → Bool
  | eq, o => o == .eq
  | ne, o => o != .eq
  | lt, o => o == .lt
  | le, o => o != .gt
  | gt, o => o == .gt
  | ge, o => o != .lt

/-! ## Truth values -/

/-- Both, where a missing truth value counts only if the other one does not decide. -/
def bothTrue : Option Bool → Option Bool → Option Bool
  | some false, _ | _, some false => some false
  | some true, some true => some true
  | _, _ => none

/-- At least one, where a missing truth value counts only if the other one does not decide. -/
def eitherTrue : Option Bool → Option Bool → Option Bool
  | some true, _ | _, some true => some true
  | some false, some false => some false
  | _, _ => none

/-! ## All operators -/

/-- The operators before or behind one operand. -/
inductive UnaryOp where
  | plus | minus | complement | not | isNull | notNull
  deriving DecidableEq, Repr

/-- The operators between two operands. Comparisons are of type `α`. -/
inductive BinaryOp (α : Type) where
  | arithmetic (op : Arithmetic)
  | bitwise (op : Bitwise)
  | concat
  | and
  | or
  | compare (relation : Relation) (rule : α)
  /-- Equality that finds two missing values equal. -/
  | is (rule : α)
  deriving DecidableEq, Repr

/-- The result of an operator on one value. -/
def UnaryOp.apply (op : UnaryOp) (a : Value) : Value :=
  match op with
  | plus => a
  | minus => Arithmetic.subtract.apply (.integer 0) a
  | complement => if a.isNull then .null else .integer (~~~ a.toInteger)
  | not => ofTruth (a.truth?.map (!·))
  | isNull => .ofBool a.isNull
  | notNull => .ofBool (!a.isNull)

/-- Two texts put together. -/
def Value.concat (a b : Value) : Value :=
  match a.toText?, b.toText? with
  | some s, some t => .text (s ++ t)
  | _, _ => .null

/-- The result of an operator on two values. -/
def BinaryOp.apply (op : BinaryOp ComparisonRule) (a b : Value) : Value :=
  match op with
  | arithmetic op => op.apply a b
  | bitwise op => op.apply a b
  | concat => a.concat b
  | and => ofTruth (bothTrue a.truth? b.truth?)
  | or => ofTruth (eitherTrue a.truth? b.truth?)
  | compare relation rule => ofTruth ((rule.compare? a b).map relation.holds)
  | is rule => .ofBool (rule.order a b == .eq)

end TreeQuery.Database
