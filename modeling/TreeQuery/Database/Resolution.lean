import TreeQuery.Database.Expr
import TreeQuery.Database.Term

/-!
# Looking up names

`Expr.resolve` makes a term of an expression: names become columns or the columns of the result
that they are aliases of, calls become functions or aggregates, and comparisons get the rule that
their operands ask for.

No function of the program is behind this module: it is part of what stands for the engine
(`Engine.ofTables`).
-/

namespace TreeQuery.Database

/-- A term, and what a comparison has to know of it. -/
structure Resolved where
  term : Term
  /-- What the column holds that the term is. -/
  affinity? : Option Affinity := none
  /-- The name of the collation that goes with the term. -/
  collation? : Option String := none
  /-- Whether that collation was stated by COLLATE. -/
  stated : Bool := false

/-- What names may mean. -/
structure Scope where
  /-- Whether there are rows whose columns can be named. -/
  columns : Bool := true
  /-- The names that columns of the result are given. -/
  aliases : List (String × Resolved) := []

/-! ## Names -/

/-- A name in lower case, in which all names are compared. -/
def lowerCase (s : String) : String := s.map Char.toLower

/-- The column of a name. -/
def fieldOfName? (name : String) : Option Field :=
  Field.list.find? fun f => f.name == lowerCase name

/-- A column. -/
def Resolved.ofField (f : Field) : Resolved where
  term := .field f
  affinity? := f.affinity
  collation? := Collation.binary.name

/-- A value that is written down. -/
def Resolved.ofValue (v : Value) : Resolved := { term := .value v }

namespace Scope

/-- The column of the result that a name is an alias of. -/
def alias? (s : Scope) (name : String) : Option Resolved :=
  (s.aliases.find? fun a => lowerCase a.1 == lowerCase name).map Prod.snd

/-- What a name means: a column, an alias, or, if it is quoted, a text. -/
def name (s : Scope) (n : Name) : Except Fault Resolved :=
  match (if s.columns then fieldOfName? n.text else none), s.alias? n.text with
  | some f, _ => .ok (.ofField f)
  | none, some r => .ok r
  | none, none =>
    if n.quoted then .ok (.ofValue (.text n.text)) else .error (.unknownColumn n.text)

/-- What a name behind that of a table means. -/
def qualifiedName (s : Scope) (table name : String) : Except Fault Resolved :=
  match (if s.columns then fieldOfName? name else none) with
  | some f =>
    if f.table.name == lowerCase table then .ok (.ofField f)
    else .error (.unknownColumn (table ++ "." ++ name))
  | none => .error (.unknownColumn (table ++ "." ++ name))

end Scope

/-! ## Literals -/

/-- A whole number, as a floating-point number if it is too large. -/
def wholeValue (n : Int) : Value :=
  if Arithmetic.fits n then .integer (.ofInt n)
  else .ofReal (Decimal.toFloat n.natAbs 0 * (if n < 0 then -1 else 1))

/-- The value of a literal. -/
def Literal.value : Literal → Except Fault Value
  | null => .ok .null
  | decimal n => .ok (wholeValue n)
  | hexadecimal n =>
    if n < UInt64.size then .ok (.integer (.ofNat n)) else .error (.hugeHexadecimal (toString n))
  | real x => .ok (.ofReal x)
  | text s => .ok (.text s)

/-- The value of a literal behind a minus, if the two make one number. -/
def Literal.negated? : Literal → Option (Except Fault Value)
  | decimal n => some (.ok (wholeValue (-n)))
  | hexadecimal n =>
    some <|
      if n < UInt64.size ∧ n ≠ UInt64.size / 2 then .ok (.integer (.ofInt (-n)))
      else .error (.hugeHexadecimal (toString n))
  | real x => some (.ok (.ofReal (-x)))
  | null | text _ => none

/-! ## Rules -/

/-- The collation of a name, the plain order of characters if there is none. -/
def collationOfName (name? : Option String) : Except Fault Collation :=
  match name? with
  | none => .ok .binary
  | some name =>
    match Collation.ofName? name with
    | some c => .ok c
    | none => .error (.unknownCollation name)

/-- The collation that a term is ordered by. -/
def Resolved.collation (r : Resolved) : Except Fault Collation := collationOfName r.collation?

/-- The name of the collation of a comparison: a stated one goes before that of a column, and the
left operand before the right one. -/
def comparisonCollation (a b : Resolved) : Option String :=
  if a.stated then a.collation?
  else if b.stated then b.collation?
  else a.collation? <|> b.collation?

/-- The rule of a comparison. -/
def comparisonRule (a b : Resolved) : Except Fault ComparisonRule := do
  return ⟨Affinity.common a.affinity? b.affinity?, ← collationOfName (comparisonCollation a b)⟩

/-- The operator with the rule that its operands ask for. -/
def BinaryOp.withRule (a b : Resolved) :
    BinaryOp Unit → Except Fault (BinaryOp ComparisonRule)
  | arithmetic op => .ok (.arithmetic op)
  | bitwise op => .ok (.bitwise op)
  | concat => .ok .concat
  | and => .ok .and
  | or => .ok .or
  | compare relation _ => return .compare relation (← comparisonRule a b)
  | is _ => return .is (← comparisonRule a b)

/-- A term made of others. A collation stated in one of them, the first of several, is its own. -/
def Resolved.compound (term : Term) (parts : List Resolved) : Resolved :=
  match parts.find? Resolved.stated with
  | some part => { term, collation? := part.collation?, stated := true }
  | none => { term }

/-! ## Calls -/

/-- The aggregate of a name with so many arguments. Of several arguments `min` and `max` are
functions. -/
def aggregateOfName? (name : String) (count : Nat) : Option Aggregate :=
  (Aggregate.list.find? fun f => f.name == lowerCase name).filter fun f =>
    !(f.picksRow && 2 ≤ count)

/-- The function of a name. -/
def functionOfName? (name : String) : Option Function :=
  (Function.named ++ [Function.least, Function.greatest]).find? fun f => f.name == lowerCase name

/-- A call. -/
def resolveCall (name : String) (distinct : Bool) (args : List Resolved) :
    Except Fault Resolved := do
  let terms := args.map Resolved.term
  match aggregateOfName? name args.length with
  | some f =>
    unless f.takes args.length do throw (.argumentCount name)
    if distinct && args.length != 1 then throw .distinctArguments
    if terms.any Term.hasAggregate then throw .misplacedAggregate
    let collation ←
      if f.picksRow || distinct then collationOfName (args.head?.bind Resolved.collation?)
      else pure .binary
    return .compound (.aggregate f collation distinct terms) args
  | none =>
    match functionOfName? name with
    | some f =>
      unless f.takes args.length do throw (.argumentCount name)
      let collation ←
        if f = .least ∨ f = .greatest then collationOfName (args.findSome? Resolved.collation?)
        else pure .binary
      return .compound (.call f collation terms) args
    | none => throw (.unknownFunction name)

/-! ## Expressions -/

namespace Expr

mutual

/-- The term of an expression. -/
def resolve (s : Scope) : Expr → Except Fault Resolved
  | literal l => return .ofValue (← l.value)
  | name n => s.name n
  | qualified table column => s.qualifiedName table column
  | unary op x => do
    match op, x with
    | .minus, literal l =>
      match l.negated? with
      | some v => return .ofValue (← v)
      | none => return { term := .unary .minus (.value (← l.value)) }
    | .plus, x =>
      let r ← resolve s x
      return { r with term := .unary .plus r.term, affinity? := none }
    | op, x =>
      let r ← resolve s x
      return .compound (.unary op r.term) [r]
  | binary op x y => do
    let a ← resolve s x
    let b ← resolve s y
    return .compound (.binary (← op.withRule a b) a.term b.term) [a, b]
  | between x low high => do
    let r ← resolve s x
    let a ← resolve s low
    let b ← resolve s high
    return .compound
      (.between (← comparisonRule r a) (← comparisonRule r b) r.term a.term b.term) [r, a, b]
  -- Nothing is among no values, so that what is looked for need not mean anything.
  | inList _ [] => return .ofValue (.ofBool false)
  | inList x items => do
    let r ← resolve s x
    let rs ← resolveAll s items
    let rule := ⟨r.affinity?, ← r.collation⟩
    return .compound (.inList rule r.term (rs.map Resolved.term)) (r :: rs)
  | caseWhen branches fallback => do
    let rs ← resolveBranches s branches
    let f ← resolve s fallback
    return .compound
      (.caseWhen (rs.map fun (a, b) => (a.term, b.term)) f.term)
      (rs.flatMap (fun (a, b) => [a, b]) ++ [f])
  | caseOf x branches fallback => do
    let r ← resolve s x
    let rs ← resolveBranches s branches
    let f ← resolve s fallback
    let terms ← rs.mapM fun (a, b) => do
      return (.binary (.compare .eq (← comparisonRule r a)) r.term a.term, b.term)
    return .compound (.caseWhen terms f.term) (r :: rs.flatMap (fun (a, b) => [a, b]) ++ [f])
  | call function distinct args => do resolveCall function distinct (← resolveAll s args)
  | collate x collation => do
    let r ← resolve s x
    return { r with collation? := some collation, stated := true }
  | row _ => throw .rowValue
  | word w => throw (.notSupported w)

/-- The terms of several expressions. -/
def resolveAll (s : Scope) : List Expr → Except Fault (List Resolved)
  | [] => return []
  | x :: xs => do
    let r ← resolve s x
    return r :: (← resolveAll s xs)

/-- The terms of the branches of a CASE. -/
def resolveBranches (s : Scope) : List (Expr × Expr) → Except Fault (List (Resolved × Resolved))
  | [] => return []
  | (x, y) :: rest => do
    let a ← resolve s x
    let b ← resolve s y
    return (a, b) :: (← resolveBranches s rest)

end

/-- The term of an expression in a place without aggregates. -/
def resolveRowwise (s : Scope) (x : Expr) : Except Fault Resolved := do
  let r ← x.resolve s
  if r.term.hasAggregate then throw .misplacedAggregate
  return r

end Expr

end TreeQuery.Database
