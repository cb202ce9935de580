import TreeQuery.Proofs.Query.Spans
import TreeQuery.Query.Reading

/-!
# Reading a statement by recursive descent

The other way to read a statement than the automaton of `Place`: a `Call` for each construct of an
expression, which looks at the lexemes under an index, moves the index on and calls those for the
constructs inside it. A fragment is written down afterwards from the indices at which its expression
begins and ends, and from the list of the lexemes that were read as unary operators.

Nothing in these definitions says that a call comes to an end, that the index stays among the
lexemes, or that a text is only cut where characters meet. A computation that never ends is `none`,
and one that reaches beyond its input is `Halt.crashed`. Both are results like any other here;
`DescentProgress` and `DescentAnswer` show that they do not occur.
-/

namespace TreeQuery.Query

/-! ## Pieces of a text -/

/-- What is left of some characters after their first `n` bytes, if a character ends there. -/
def dropBytes? : Nat → List Char → Option (List Char)
  | 0, cs => some cs
  | _ + 1, [] => none
  | n + 1, c :: cs => if c.utf8Size ≤ n + 1 then dropBytes? (n + 1 - c.utf8Size) cs else none

/-- The first `n` bytes of some characters, if a character ends there. -/
def takeBytes? : Nat → List Char → Option (List Char)
  | 0, _ => some []
  | _ + 1, [] => none
  | n + 1, c :: cs =>
    if c.utf8Size ≤ n + 1 then (takeBytes? (n + 1 - c.utf8Size) cs).map (c :: ·) else none

/-- The characters from the byte `start` to the byte `stop`, if these are places between
characters. -/
def slice? (cs : List Char) (start stop : Nat) : Option (List Char) :=
  if start ≤ stop then (dropBytes? start cs).bind (takeBytes? (stop - start)) else none

theorem dropBytes?_append (before after : List Char) :
    dropBytes? (Text.byteLength before) (before ++ after) = some after := by
  induction before with
  | nil => rw [List.nil_append, Text.byteLength_nil, dropBytes?]
  | cons c cs ih =>
    obtain ⟨n, hn⟩ := Nat.exists_eq_succ_of_ne_zero
      (show c.utf8Size + Text.byteLength cs ≠ 0 from (Nat.add_pos_left c.utf8Size_pos _).ne')
    rw [Text.byteLength_cons, hn, List.cons_append, dropBytes?, if_pos (by omega),
      show n + 1 - c.utf8Size = Text.byteLength cs by omega, ih]

theorem takeBytes?_append (front after : List Char) :
    takeBytes? (Text.byteLength front) (front ++ after) = some front := by
  induction front with
  | nil => rw [Text.byteLength_nil, takeBytes?]
  | cons c cs ih =>
    obtain ⟨n, hn⟩ := Nat.exists_eq_succ_of_ne_zero
      (show c.utf8Size + Text.byteLength cs ≠ 0 from (Nat.add_pos_left c.utf8Size_pos _).ne')
    rw [Text.byteLength_cons, hn, List.cons_append, takeBytes?, if_pos (by omega),
      show n + 1 - c.utf8Size = Text.byteLength cs by omega, ih]
    rfl

theorem slice?_append (before front after : List Char) :
    slice? (before ++ (front ++ after)) (Text.byteLength before)
      (Text.byteLength before + Text.byteLength front) = some front := by
  rw [slice?, if_pos (Nat.le_add_right _ _), dropBytes?_append, Option.bind_some,
    Nat.add_sub_cancel_left, takeBytes?_append]

namespace Descent

/-! ## Computations -/

/-- What is read: a text and its lexemes. -/
structure Input where
  source : List Char
  lexemes : List Lexeme

/-- How far the reading has come. -/
structure Cursor where
  /-- The index of the lexeme that comes next. -/
  index : Nat := 0
  /-- The indices of the lexemes that were read as unary operators, as they came. -/
  unary : List Nat := []
  /-- The intervals of lexemes that were written down, as they came. -/
  rendered : List (Nat × Nat) := []
  deriving DecidableEq, Repr

/-- Why a computation stops before its end. -/
inductive Halt where
  /-- The lexemes are no statement. -/
  | refused (message : String)
  /-- There is no lexeme at an index, or no character at a byte. -/
  | crashed
  deriving DecidableEq, Repr

/-- A computation that moves the cursor and may stop, or never end. -/
abbrev Reader (α : Type) : Type := ExceptT Halt (StateT Cursor Option) α

section Input

variable (p : Input)

/-- The token at an index. -/
def Input.tokenAt (i : Nat) : Option Token :=
  p.lexemes[i]?.map Lexeme.token

/-- What is said when something else than the lexeme at an index is wanted. -/
def Input.complaint (i : Nat) (wanted : String) : String :=
  match p.lexemes[i]? with
  | some l => s!"expected {wanted} near byte {l.start}"
  | none => s!"expected {wanted} but reached end of query"

/-- The characters of a lexeme, cut out of the text. -/
def Input.textOf (l : Lexeme) : Except Halt (List Char) :=
  match slice? p.source l.start l.stop with
  | some cs => .ok cs
  | none => .error .crashed

/-- The word at an index, where the lexemes of `unary` are unary operators. -/
def Input.wordAt (unary : List Nat) (i : Nat) : Except Halt Word :=
  match p.lexemes[i]? with
  | some l => do return ⟨l.token, ← p.textOf l, unary.contains i⟩
  | none => .error .crashed

end Input

/-! ## The lexeme that comes next -/

section Lookahead

variable (p : Input)

/-- The token `offset` lexemes ahead. -/
def peek (offset : Nat) : Reader (Option Token) := do
  return p.tokenAt ((← get).index + offset)

def peekIs (t : Token) : Reader Bool := do
  return (← peek p 0) == some t

def advance (n : Nat) : Reader Unit :=
  modify fun s => { s with index := s.index + n }

/-- Moves past a unary operator. -/
def consumeUnary : Reader Unit :=
  modify fun s => { s with index := s.index + 1, unary := s.unary ++ [s.index] }

/-- Moves past a token if it comes next. -/
def consume (t : Token) : Reader Bool := do
  if ← peekIs p t then
    advance 1
    return true
  else
    return false

def refuse {α : Type} (wanted : String) : Reader α := do
  throw (.refused (p.complaint (← get).index wanted))

/-- Moves past a token that must come next. -/
def expect (t : Token) (wanted : String) : Reader Unit := do
  if ← consume p t then return
  refuse p wanted

/-- Moves past a name, if one comes next. -/
def consumeName : Reader (Option String) := do
  match p.lexemes[(← get).index]? with
  | none => return none
  | some l =>
    match l.token with
    | .ident =>
      let cs ← MonadExcept.ofExcept (p.textOf l)
      advance 1
      return some (String.ofList cs)
    | .singleQuoted | .doubleQuoted =>
      let cs ← MonadExcept.ofExcept (p.textOf l)
      advance 1
      return some (String.ofList (Text.unquote cs))
    | _ => return none

end Lookahead

/-! ## Expressions -/

/-- An operator after an operand, with the lexemes that it takes. -/
inductive Infix where
  | binary (level : Nat)
  | is_
  | in_ (negated : Bool)
  | between (negated : Bool)
  | like (negated : Bool)
  | nullTest (lexemes : Nat)
  deriving DecidableEq, Repr

/-- The level of an operator. -/
def Infix.level : Infix → Nat
  | binary level => level
  | _ => equalityLevel

/-- The operator that a token is after an operand; `next` is the token that follows it. -/
def Infix.ofToken? (next : Option Token) : Token → Option Infix
  | .symbol s => s.level?.map binary
  | .keyword .or_ => some (binary 1)
  | .keyword .and_ => some (binary 2)
  | .keyword .is_ => some is_
  | .keyword .in_ => some (in_ false)
  | .keyword .between => some (between false)
  | .keyword .isNull | .keyword .notNull => some (nullTest 1)
  | .keyword .not_ =>
    match next with
    | some (.keyword .in_) => some (in_ true)
    | some (.keyword .between) => some (between true)
    | some (.keyword .null) => some (nullTest 2)
    | some (.keyword k) => if k.isLikeFamily then some (like true) else none
    | _ => none
  | .keyword k => if k.isLikeFamily then some (like false) else none
  | _ => none

/-- The operator at an index. -/
def Input.infixAt (p : Input) (i : Nat) : Option Infix :=
  (p.tokenAt i).bind (Infix.ofToken? (p.tokenAt (i + 1)))

def peekInfix (p : Input) : Reader (Option Infix) := do
  return p.infixAt (← get).index

/-- The constructs of an expression, and the loops inside them. -/
inductive Call where
  /-- An operand and the operators of at least a level after it. -/
  | expression (least : Nat)
  /-- The operators of at least a level, one after the other. -/
  | operators (least : Nat)
  /-- An operator that comes next, and its other operands. -/
  | operator (op : Infix)
  /-- An operand with the signs before it and the collations after it. -/
  | unary
  /-- The collations after an operand, one after the other. -/
  | collations
  | primary
  /-- The arguments of a function. -/
  | arguments
  /-- One or more expressions with commas between them. -/
  | expressions
  /-- The expressions after a comma, one after the other. -/
  | moreExpressions
  | case_
  /-- The alternatives of CASE, one after the other. -/
  | alternatives
  deriving DecidableEq, Repr

/-- **Reads a construct** from the cursor on. -/
def call (p : Input) (c : Call) : Reader Unit := do
  -- By `apply`: the definition does not record where in the file its calls stand.
  let again : Call → Reader Unit := by apply call; exact p
  match c with
  | .expression least =>
    if ← peekIs p (.keyword .not_) then
      consumeUnary
      again (.expression notLevel)
    else
      again .unary
    again (.operators least)
  | .operators least =>
    match ← peekInfix p with
    | some op =>
      if op.level < least then return
      again (.operator op)
      again (.operators least)
    | none => return
  | .operator op =>
    match op with
    | .binary level =>
      advance 1
      again (.expression (level + 1))
    | .is_ =>
      advance 1
      let _ ← consume p (.keyword .not_)
      again (.expression comparisonLevel)
    | .in_ negated =>
      advance (1 + negated.toNat)
      expect p (.symbol .openParen) "'(' after IN"
      if ← consume p (.symbol .closeParen) then return
      again .expressions
      expect p (.symbol .closeParen) "')' closing IN list"
    | .between negated =>
      advance (1 + negated.toNat)
      again (.expression comparisonLevel)
      expect p (.keyword .and_) "AND in BETWEEN"
      again (.expression comparisonLevel)
    | .like negated =>
      advance (1 + negated.toNat)
      again (.expression comparisonLevel)
      if ← consume p (.keyword .escape) then
        again (.expression comparisonLevel)
    | .nullTest lexemes => advance lexemes
  | .unary =>
    match ← peek p 0 with
    | some (.symbol .minus) | some (.symbol .plus) | some (.symbol .tilde) =>
      consumeUnary
      again .unary
    | _ => again .primary
    again .collations
  | .collations =>
    if ← consume p (.keyword .collate) then
      if (← consumeName p).isNone then
        refuse p "collation name"
      again .collations
  | .primary =>
    match ← peek p 0 with
    | none => refuse p "expression"
    | some token =>
      match token with
      | .number | .singleQuoted | .doubleQuoted | .keyword .null | .keyword .currentDate
      | .keyword .currentTime | .keyword .currentTimestamp => advance 1
      | .ident =>
        advance 1
        if ← consume p (.symbol .dot) then
          expect p .ident "column name after '.'"
        else if ← peekIs p (.symbol .openParen) then
          again .arguments
      | .symbol .openParen =>
        advance 1
        again .expressions
        expect p (.symbol .closeParen) "')'"
      | .keyword .case_ => again .case_
      | .keyword k =>
        if k.isLikeFamily && (← peek p 1) == some (.symbol .openParen) then
          advance 1
          again .arguments
        else
          refuse p "expression"
      | _ => refuse p "expression"
  | .arguments =>
    expect p (.symbol .openParen) "'('"
    if (← consume p (.symbol .star)) || (← peekIs p (.symbol .closeParen)) then
      expect p (.symbol .closeParen) "')' closing call"
    else
      let _ ← consume p (.keyword .distinct)
      again .expressions
      expect p (.symbol .closeParen) "')' closing call"
  | .expressions =>
    again (.expression 1)
    again .moreExpressions
  | .moreExpressions =>
    if ← consume p (.symbol .comma) then
      again (.expression 1)
      again .moreExpressions
  | .case_ =>
    expect p (.keyword .case_) "CASE"
    unless ← peekIs p (.keyword .when_) do
      again (.expression 1)
    unless ← peekIs p (.keyword .when_) do
      refuse p "WHEN"
    again .alternatives
    if ← consume p (.keyword .else_) then
      again (.expression 1)
    expect p (.keyword .end_) "END closing CASE"
  | .alternatives =>
    if ← consume p (.keyword .when_) then
      again (.expression 1)
      expect p (.keyword .then_) "THEN"
      again (.expression 1)
      again .alternatives
partial_fixpoint

/-- One or more expressions are one, and those after the commas. -/
theorem call_expressions (p : Input) :
    call p .expressions = (do call p (.expression 1); call p .moreExpressions) := by
  conv_lhs => rw [call]

/-! ## Statements -/

section Statement

variable (p : Input)

/-- The words of the lexemes from the index `start` to the index `stop`. -/
def render (start stop : Nat) : Reader Fragment := do
  modify fun s => { s with rendered := s.rendered ++ [(start, stop)] }
  let s ← get
  MonadExcept.ofExcept ((List.range' start (stop - start)).mapM (p.wordAt s.unary))

/-- An expression, as the words that it is made of. -/
def fragment : Reader Fragment := do
  let start := (← get).index
  call p (.expression 1)
  render p start (← get).index

/-- Moves past ASC or DESC if it comes next. -/
def direction : Reader Unit := do
  if ← consume p (.keyword .asc) then return
  let _ ← consume p (.keyword .desc)

/-- A term of ORDER BY: an expression and its direction. -/
def orderTerm : Reader Fragment := do
  let start := (← get).index
  call p (.expression 1)
  direction p
  render p start (← get).index

/-- One or more pieces with commas between them. -/
def separated {α : Type} (piece : Reader α) : Reader (List α) := do
  let again : Reader (List α) := by apply separated; exact piece
  let a ← piece
  if ← consume p (.symbol .comma) then
    return a :: (← again)
  else
    return [a]
partial_fixpoint

def columnAlias : Reader (Option String) := do
  if ← consume p (.keyword .as_) then
    match ← consumeName p with
    | some name => return some name
    | none => refuse p "alias after AS"
  else if ← peekIs p .ident then
    consumeName p
  else
    return none

def column : Reader (Column Fragment) := do
  if ← consume p (.symbol .star) then
    return .wildcard
  else
    let words ← fragment p
    return .expr words (← columnAlias p)

/-- Whether the rows are distinct. -/
def quantifier : Reader Bool := do
  if ← consume p (.keyword .distinct) then
    return true
  else
    let _ ← consume p (.keyword .all)
    return false

/-- The path after FROM. -/
def sourcePath : Reader String := do
  match ← peek p 0 with
  | some (.source path) =>
    advance 1
    return path
  | _ => refuse p "FROM"

/-- A fragment after a word that may be left out. -/
def fragmentAfter (k : Keyword) : Reader (Option Fragment) := do
  if ← consume p (.keyword k) then
    return some (← fragment p)
  else
    return none

/-- The terms of GROUP BY, and the condition after them. -/
def grouping : Reader (List Fragment × Option Fragment) := do
  if ← consume p (.keyword .group) then
    expect p (.keyword .by_) "BY after GROUP"
    let terms ← separated p (fragment p)
    return (terms, ← fragmentAfter p .having)
  else
    return ([], none)

/-- The terms of ORDER BY. -/
def ordering : Reader (List Fragment) := do
  if ← consume p (.keyword .order) then
    expect p (.keyword .by_) "BY after ORDER"
    separated p (orderTerm p)
  else
    return []

/-- How many rows there are at most, and how many are left out before them. -/
def limits : Reader (Option Fragment × Option Fragment) := do
  if ← consume p (.keyword .limit) then
    let first ← fragment p
    if ← consume p (.keyword .offset) then
      return (some first, some (← fragment p))
    else if ← consume p (.symbol .comma) then
      return (some (← fragment p), some first)
    else
      return (some first, none)
  else
    return (none, none)

/-- The clauses after FROM and its path. -/
def clauses (path : String) (distinct : Bool) (columns : List (Column Fragment)) :
    Reader (Statement Fragment) := do
  let predicate ← fragmentAfter p .where_
  let (groupBy, having) ← grouping p
  let orderBy ← ordering p
  let (limit, offset) ← limits p
  return { path, distinct, columns, predicate, groupBy, having, orderBy, limit, offset }

/-- Nothing follows the statement. -/
def atEnd : Reader Unit := do
  match p.lexemes[(← get).index]? with
  | some l => throw (.refused s!"unexpected token near byte {l.start}")
  | none => return

/-- **Reads a statement** from the cursor on. -/
def statement : Reader (Statement Fragment) := do
  expect p (.keyword .select) "SELECT"
  let distinct ← quantifier p
  let columns ← separated p (column p)
  let path ← sourcePath p
  let s ← clauses p path distinct columns
  atEnd p
  return s

end Statement

/-- The result of a computation, and the cursor that it leaves; none if it never ends. -/
def exec {α : Type} (m : Reader α) (s : Cursor) : Option (Except Halt α × Cursor) :=
  m.run.run s

/-- **Reads a text** as a statement. -/
def answer (text : String) : Option (Except Halt (Query.Statement String)) :=
  match tokenize text with
  | .error e => some (.error (.refused e.message))
  | .ok [] => some (.error (.refused SyntaxError.empty.message))
  | .ok ls =>
    (exec (statement ⟨text.toList, ls⟩) {}).map fun result =>
      result.1.map (Query.Statement.map Fragment.text)

end Descent

end TreeQuery.Query
