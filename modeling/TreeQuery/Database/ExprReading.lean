import TreeQuery.Database.Expr
import TreeQuery.Database.Fault
import TreeQuery.Database.Numeral
import TreeQuery.Query.Place
import TreeQuery.Query.Scan
import TreeQuery.Text.Quoted

/-!
# Reading expressions

The pieces of a request are texts; `Expr.ofText` reads one as an expression. Operators bind as in
SQL: OR, AND, NOT, equality, order, bits, sums, products and `||`, from loosest to tightest, and
all of them to the left. Reading goes down through operands; every call is given one step less to
go than the one before it, and there are enough steps for the tokens of the text.

No function of the program is behind this module: it is part of what stands for the engine
(`Engine.ofTables`).
-/

namespace TreeQuery.Database

open Query

/-- Reads a front of some lexemes, or fails. -/
abbrev Reader := StateT (List Lexeme) Option

namespace Reader

/-- The next token, which stays. -/
def peek : Reader (Option Token) := return (← get).head?.map Lexeme.token

/-- The token behind the next one. -/
def peekSecond : Reader (Option Token) := return ((← get).drop 1).head?.map Lexeme.token

/-- Takes the next lexeme. -/
def next : Reader Lexeme := do
  match ← get with
  | [] => failure
  | l :: rest =>
    set rest
    return l

/-- Takes the next token if it is this one. -/
def accept (t : Token) : Reader Bool := do
  if (← peek) = some t then
    let _ ← next
    return true
  return false

/-- Takes this token, or fails. -/
def expect (t : Token) : Reader Unit := do
  unless ← accept t do failure

/-- Takes this keyword if it comes next. -/
def acceptWord (k : Keyword) : Reader Bool := accept (.keyword k)

end Reader

open Reader

/-! ## Operators -/

/-- An operator between two operands. -/
def binaryOp? : Token → Option (BinaryOp Unit)
  | .keyword .or_ => some .or
  | .keyword .and_ => some .and
  | .symbol .eq | .symbol .eqEq => some (.compare .eq ())
  | .symbol .notEq | .symbol .ltGt => some (.compare .ne ())
  | .symbol .lt => some (.compare .lt ())
  | .symbol .le => some (.compare .le ())
  | .symbol .gt => some (.compare .gt ())
  | .symbol .ge => some (.compare .ge ())
  | .symbol .bitAnd => some (.bitwise .and)
  | .symbol .bitOr => some (.bitwise .or)
  | .symbol .shiftLeft => some (.bitwise .shiftLeft)
  | .symbol .shiftRight => some (.bitwise .shiftRight)
  | .symbol .plus => some (.arithmetic .add)
  | .symbol .minus => some (.arithmetic .subtract)
  | .symbol .star => some (.arithmetic .multiply)
  | .symbol .slash => some (.arithmetic .divide)
  | .symbol .percent => some (.arithmetic .remainder)
  | .symbol .concat => some .concat
  | _ => none

/-- An operator between two operands, and how tightly it binds. -/
def leveledOp? (t : Token) : Option (Nat × BinaryOp Unit) := do
  let op ← binaryOp? t
  return ((← Operator.ofToken? none t).level, op)

/-- A sign in front of an operand. -/
def sign? : Token → Option UnaryOp
  | .symbol .plus => some .plus
  | .symbol .minus => some .minus
  | .symbol .tilde => some .complement
  | _ => none

/-- An operator made of words. -/
inductive WordOp where
  | is (negated : Bool)
  | isNull
  | notNull
  | inList (negated : Bool)
  | between (negated : Bool)
  | like (negated : Bool) (k : Keyword)
  deriving DecidableEq, Repr

/-- Takes an operator made of words, if one comes next. -/
def wordOp : Reader (Option WordOp) := do
  match ← peek with
  | some (.keyword .is_) =>
    let _ ← next
    return some (.is (← acceptWord .not_))
  | some (.keyword .isNull) =>
    let _ ← next
    return some .isNull
  | some (.keyword .notNull) =>
    let _ ← next
    return some .notNull
  | some (.keyword .not_) =>
    match ← peekSecond with
    | some (.keyword .null) =>
      let _ ← next
      let _ ← next
      return some .notNull
    | some (.keyword k) =>
      let _ ← next
      plain true k
    | _ => return none
  | some (.keyword k) => plain false k
  | _ => return none
where
  /-- An operator whose word comes next. -/
  plain (negated : Bool) (k : Keyword) : Reader (Option WordOp) := do
    if k = .in_ then
      let _ ← next
      return some (.inList negated)
    else if k = .between then
      let _ ← next
      return some (.between negated)
    else if k.isLikeFamily then
      let _ ← next
      return some (.like negated k)
    else return none

/-- NOT before an expression, if it is negated. -/
def negateIf (negated : Bool) (x : Expr) : Expr := if negated then .unary .not x else x

/-! ## Operands -/

/-- Words that cannot stand as names, except between quotes. -/
def reservedWords : List String :=
  ["add", "alter", "autoincrement", "check", "commit", "constraint", "create", "default",
    "deferrable", "delete", "drop", "except", "exists", "foreign", "index", "insert",
    "intersect", "into", "join", "nothing", "on", "primary", "references", "returning", "set",
    "table", "to", "transaction", "union", "unique", "update", "using", "values"]

/-- The value of a hexadecimal digit. -/
def hexValue (c : Char) : Nat :=
  if c.isDigit then c.toNat - 48 else c.toLower.toNat - 87

/-- The number that a token spells. -/
def numberLiteral (cs : List Char) : Literal :=
  match cs with
  | '0' :: x :: digits =>
    if x = 'x' ∨ x = 'X' then .hexadecimal (digits.foldl (fun n d => 16 * n + hexValue d) 0)
    else decimal
  | _ => decimal
where
  /-- A number with decimal digits. -/
  decimal : Literal :=
    let n := Numeral.read cs
    if n.fractional then .real n.toReal else .decimal n.coefficient

mutual

/-- An expression whose operators bind at least as tightly as a level. -/
def readExpr : Nat → Nat → Reader Expr
  | 0, _ => failure
  | steps + 1, level => do
    let left ←
      if ← acceptWord .not_ then
        let x ← readExpr steps notLevel
        pure (.unary .not x)
      else readOperand steps
    readTail steps level left

/-- What follows an operand. -/
def readTail : Nat → Nat → Expr → Reader Expr
  | 0, _, _ => failure
  | steps + 1, level, left => do
    match (← peek).bind leveledOp? with
    | some (tightness, op) =>
      if tightness < level then return left
      let _ ← next
      let right ← readExpr steps (tightness + 1)
      readTail steps level (.combine op left right)
    | none =>
      if equalityLevel < level then return left
      match ← wordOp with
      | none => return left
      | some .isNull => readTail steps level (.unary .isNull left)
      | some .notNull => readTail steps level (.unary .notNull left)
      | some (.is negated) =>
        let right ← readExpr steps comparisonLevel
        readTail steps level (negateIf negated (.binary (.is ()) left right))
      | some (.inList negated) =>
        expect (.symbol .openParen)
        let items ← readItems steps
        readTail steps level (negateIf negated (.inList left items))
      | some (.between negated) =>
        let low ← readExpr steps comparisonLevel
        expect (.keyword .and_)
        let high ← readExpr steps comparisonLevel
        readTail steps level (negateIf negated (.between left low high))
      | some (.like negated k) =>
        let pattern ← readExpr steps comparisonLevel
        let args ←
          if ← acceptWord .escape then
            let escape ← readExpr steps comparisonLevel
            pure [pattern, left, escape]
          else pure [pattern, left]
        readTail steps level (negateIf negated (.call k.word false args))

/-- An operand with the signs before it and the collations behind it. -/
def readOperand : Nat → Reader Expr
  | 0 => failure
  | steps + 1 => do
    match (← peek).bind sign? with
    | some op =>
      let _ ← next
      let x ← readOperand steps
      readCollations steps (.unary op x)
    | none =>
      let x ← readPrimary steps
      readCollations steps x

/-- The collations behind an operand. -/
def readCollations : Nat → Expr → Reader Expr
  | 0, _ => failure
  | steps + 1, x => do
    if ← acceptWord .collate then
      let l ← next
      readCollations steps (.collate x (String.ofList (Text.unquote l.text)))
    else return x

/-- A literal, a name, a call, an expression in parentheses or a CASE. -/
def readPrimary : Nat → Reader Expr
  | 0 => failure
  | steps + 1 => do
    let l ← next
    match l.token with
    | .number => return .literal (numberLiteral l.text)
    | .singleQuoted => return .literal (.text (String.ofList (Text.unquote l.text)))
    | .doubleQuoted => return .name ⟨String.ofList (Text.unquote l.text), true⟩
    | .keyword .null => return .literal .null
    | .keyword .case_ => readCase steps
    | .symbol .openParen =>
      match ← readItems steps with
      | [] => failure
      | [x] => return x
      | items => return .row items
    | .ident =>
      let name := String.ofList l.text
      if reservedWords.contains (name.map Char.toLower) then failure
      if ← accept (.symbol .openParen) then readCall steps name
      else if ← accept (.symbol .dot) then return .qualified name (String.ofList (← next).text)
      else return .name ⟨name, false⟩
    | .keyword k =>
      if k.isLikeFamily then
        expect (.symbol .openParen)
        readCall steps k.word
      else return .word (String.ofList l.text)
    | _ => failure

/-- The arguments of a call behind its opening parenthesis. A star stands for none. -/
def readCall : Nat → String → Reader Expr
  | 0, _ => failure
  | steps + 1, name => do
    if ← accept (.symbol .star) then
      expect (.symbol .closeParen)
      return .call name false []
    let distinct ← acceptWord .distinct
    return .call name distinct (← readItems steps)

/-- Expressions up to a closing parenthesis, of which there may be none. -/
def readItems : Nat → Reader (List Expr)
  | 0 => failure
  | steps + 1 => do
    if ← accept (.symbol .closeParen) then return []
    let x ← readExpr steps 0
    readMore steps [x]

/-- Further expressions behind commas, up to a closing parenthesis. Those read so far come last
first. -/
def readMore : Nat → List Expr → Reader (List Expr)
  | 0, _ => failure
  | steps + 1, items => do
    if ← accept (.symbol .closeParen) then return items.reverse
    expect (.symbol .comma)
    let x ← readExpr steps 0
    readMore steps (x :: items)

/-- What follows the word CASE. -/
def readCase : Nat → Reader Expr
  | 0 => failure
  | steps + 1 => do
    if ← acceptWord .when_ then
      let (branches, fallback) ← readBranches steps []
      return .caseWhen branches fallback
    let x ← readExpr steps 0
    expect (.keyword .when_)
    let (branches, fallback) ← readBranches steps []
    return .caseOf x branches fallback

/-- What follows the word WHEN. The branches read so far come last first. -/
def readBranches : Nat → List (Expr × Expr) → Reader (List (Expr × Expr) × Expr)
  | 0, _ => failure
  | steps + 1, branches => do
    let condition ← readExpr steps 0
    expect (.keyword .then_)
    let result ← readExpr steps 0
    let branches := (condition, result) :: branches
    if ← acceptWord .when_ then readBranches steps branches
    else
      let fallback ←
        if ← acceptWord .else_ then readExpr steps 0 else pure (.literal .null)
      expect (.keyword .end_)
      return (branches.reverse, fallback)

end

/-! ## Texts -/

/-- The lexemes of a piece of a request. -/
def lexemesOf (text : String) : Except Fault (List Lexeme) :=
  match tokenize text with
  | .ok lexemes => .ok lexemes
  | .error _ => .error (.unreadable text)

/-- How many calls may be nested while these lexemes are read. -/
def stepsFor (lexemes : List Lexeme) : Nat := 5 * lexemes.length + 5

/-- The expression that some lexemes are. -/
def Expr.ofLexemes? (lexemes : List Lexeme) : Option Expr :=
  match (readExpr (stepsFor lexemes) 0).run lexemes with
  | some (x, []) => some x
  | _ => none

/-- The expression that a text is. -/
def Expr.ofText (text : String) : Except Fault Expr := do
  match Expr.ofLexemes? (← lexemesOf text) with
  | some x => return x
  | none => throw (.unreadable text)

/-- The expression that a term of ORDER BY sorts by, and whether it does so downwards. -/
def orderTermOfText (text : String) : Except Fault (Expr × Bool) := do
  let lexemes ← lexemesOf text
  let (body, descending) := match lexemes.getLast?.map Lexeme.token with
    | some (.keyword .desc) => (lexemes.dropLast, true)
    | some (.keyword .asc) => (lexemes.dropLast, false)
    | _ => (lexemes, false)
  match Expr.ofLexemes? body with
  | some x => return (x, descending)
  | none => throw (.unreadable text)

end TreeQuery.Database
