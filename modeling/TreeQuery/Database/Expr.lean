import TreeQuery.Database.Operator

/-!
# Expressions

The tree of an expression as it is written. Names are not looked up yet, and comparisons carry no
rule.

No function of the program is behind this module: it is part of what stands for the engine
(`Engine.ofTables`).
-/

namespace TreeQuery.Database

/-- A value that is written down. -/
inductive Literal where
  | null
  /-- Decimal digits. -/
  | decimal (n : Nat)
  /-- Hexadecimal digits, which say the 64 bits of a number. -/
  | hexadecimal (n : Nat)
  | real (x : Float)
  | text (s : String)
  deriving Repr

/-- A name as it is written. -/
structure Name where
  text : String
  /-- Whether it stands between double quotes. -/
  quoted : Bool := false
  deriving DecidableEq, Repr

/-- An expression. -/
inductive Expr where
  | literal (l : Literal)
  | name (n : Name)
  /-- A name behind the name of a table. -/
  | qualified (table name : String)
  | unary (op : UnaryOp) (x : Expr)
  | binary (op : BinaryOp Unit) (x y : Expr)
  | between (x low high : Expr)
  | inList (x : Expr) (items : List Expr)
  /-- The first branch whose condition holds. -/
  | caseWhen (branches : List (Expr × Expr)) (fallback : Expr)
  /-- The first branch that `x` is equal to. -/
  | caseOf (x : Expr) (branches : List (Expr × Expr)) (fallback : Expr)
  | call (function : String) (distinct : Bool) (args : List Expr)
  | collate (x : Expr) (collation : String)
  /-- Several expressions in parentheses. -/
  | row (items : List Expr)
  /-- A word that stands for a value which is not known here, such as the time of day. -/
  | word (w : String)

namespace Expr

/-- The largest number that counts as the number of a column. -/
def columnLimit : Nat := 0x7FFFFFFF

/-- The number that an expression is, if it is one and may be the number of a column. -/
def number? : Expr → Option Int
  | literal (.decimal n) | literal (.hexadecimal n) => if n ≤ columnLimit then some n else none
  | unary .plus x => x.number?
  | unary .minus x => x.number?.map (- ·)
  | _ => none

/-- Whether an expression is plainly false: the number 0, or a search among no values. -/
def plainlyFalse : Expr → Bool
  | literal (.decimal 0) | literal (.hexadecimal 0) | inList _ [] => true
  | _ => false

/-- An operator between two expressions. A conjunction with something plainly false is the number
0, so that what is on the other side need not mean anything. -/
def combine (op : BinaryOp Unit) (x y : Expr) : Expr :=
  match op with
  | .and => if x.plainlyFalse || y.plainlyFalse then literal (.decimal 0) else binary .and x y
  | op => binary op x y

/-- An expression without COLLATE around it. -/
def withoutCollate : Expr → Expr
  | collate x _ => x.withoutCollate
  | x => x

end Expr

end TreeQuery.Database
