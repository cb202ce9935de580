import TreeQuery.Query.SyntaxError
import TreeQuery.Query.Token

/-!
# Places in a statement

The grammar of statements as a pushdown automaton that reads one token at a time. A `Place` says
where in a statement a reader stands: between clauses, or in an expression of some clause. Inside
an expression the `Frame`s are the constructs that are still open there, the innermost first; the
`Mode` says what must come next.

`Place.step` reads one token. It looks at the token after it in two cases only: NOT after an
operand is an operator before IN, BETWEEN, NULL and the words of LIKE's family, and one of those
words is the name of a function before an opening parenthesis.

Operators bind in nine levels, from OR to `||`. After an operand an operator goes to the innermost
open operand that is allowed to hold an operator of its level, and closes everything inside it.

`Place.step` stands for `parse_select` and all that it calls, one token at a time, and the levels
are the `PREC_` constants. `TreeQuery.Proofs.Query.Descent` has these functions one by one, with the
proof that they read the same statements.
-/

namespace TreeQuery.Query

/-! ## Operators -/

/-- The level of NOT before an operand. -/
def notLevel : Nat := 3

/-- The level of equality, and with it of IS, IN, BETWEEN, NULL tests and LIKE's family. -/
def equalityLevel : Nat := 4

/-- The level of the operands of those operators: everything that binds more tightly. -/
def comparisonLevel : Nat := 5

/-- The level of a symbol that stands between two operands. -/
def Symbol.level? : Symbol → Option Nat
  | .eq | .eqEq | .notEq | .ltGt => some equalityLevel
  | .lt | .le | .gt | .ge => some comparisonLevel
  | .bitAnd | .bitOr | .shiftLeft | .shiftRight => some 6
  | .plus | .minus => some 7
  | .star | .slash | .percent => some 8
  | .concat => some 9
  | _ => none

/-- An operator that may follow an operand. -/
inductive Operator where
  /-- Between two operands. -/
  | binary (level : Nat)
  | is_
  | in_
  | between
  | like
  /-- ISNULL or NOTNULL. -/
  | nullTest
  /-- NOT before one of IN, BETWEEN, LIKE or NULL. -/
  | negation
  deriving DecidableEq, Repr

/-- The level of an operator. -/
def Operator.level : Operator → Nat
  | binary level => level
  | _ => equalityLevel

/-- Whether a token makes an operator of a NOT that stands right before it. -/
def negatable : Option Token → Bool
  | some (.keyword k) => k == .in_ || k == .between || k == .null || k.isLikeFamily
  | _ => false

/-- The operator that a token is after an operand; `next` is the token that follows it. -/
def Operator.ofToken? (next : Option Token) : Token → Option Operator
  | .symbol s => s.level?.map binary
  | .keyword .or_ => some (binary 1)
  | .keyword .and_ => some (binary 2)
  | .keyword .is_ => some is_
  | .keyword .in_ => some in_
  | .keyword .between => some between
  | .keyword .isNull | .keyword .notNull => some nullTest
  | .keyword .not_ => if negatable next then some negation else none
  | .keyword k => if k.isLikeFamily then some like else none
  | _ => none

/-! ## Places -/

/-- A construct of an expression that is still open. -/
inductive Frame where
  /-- An operand that operators of at least this level may continue. -/
  | operators (least : Nat)
  /-- The pattern of LIKE; ESCAPE may follow. -/
  | pattern
  /-- The lower bound of BETWEEN; AND must follow. -/
  | lowerBound
  /-- The list of IN; a comma or the closing parenthesis must follow. -/
  | list
  /-- The arguments of a function; a comma or the closing parenthesis must follow. -/
  | arguments
  /-- Parentheses around expressions; a comma or the closing parenthesis must follow. -/
  | group
  /-- The subject of CASE; WHEN must follow. -/
  | caseSubject
  /-- The condition of a WHEN; THEN must follow. -/
  | caseCondition
  /-- The result of a THEN; WHEN, ELSE or END must follow. -/
  | caseResult
  /-- The result of ELSE; END must follow. -/
  | caseDefault
  deriving DecidableEq, Repr

/-- What must come next inside an expression. -/
inductive Mode where
  /-- An operand, perhaps after NOT. -/
  | operand
  /-- An operand after a sign. -/
  | signed
  /-- The operand after IS, perhaps after a NOT that belongs to IS. -/
  | isOperand
  /-- A name has been read: a dot or an argument list may follow. -/
  | name
  /-- The name after a dot. -/
  | member
  /-- The opening parenthesis of an argument list. -/
  | call
  /-- The inside of an argument list. -/
  | argumentList
  /-- The end of the argument list `(*`. -/
  | callEnd
  /-- CASE has been read: a subject or WHEN follows. -/
  | case_
  /-- An operand is complete; COLLATE may follow. -/
  | operandEnd
  /-- The name after COLLATE. -/
  | collation
  /-- An operand is complete, and COLLATE may not follow. -/
  | end_
  /-- The opening parenthesis after IN. -/
  | inList
  /-- The inside of the list of IN. -/
  | inItems
  /-- The operator that a NOT negates. -/
  | negated
  deriving DecidableEq, Repr

/-- The clause that an expression stands in. -/
inductive Clause where
  | column
  | predicate
  | groupTerm
  | having
  | orderTerm
  /-- The first number after LIMIT. -/
  | limit
  /-- The number after `LIMIT n ,`. -/
  | count
  /-- The number after `LIMIT n OFFSET`. -/
  | offset
  deriving DecidableEq, Repr

/-- Where in a statement a reader stands. -/
inductive Place where
  /-- Before SELECT. -/
  | start
  /-- After SELECT: DISTINCT or ALL may follow. -/
  | quantifier
  /-- Before a column. -/
  | column
  /-- After AS. -/
  | alias
  /-- After a column and its alias. -/
  | columnEnd
  /-- After FROM and its target. -/
  | sourceEnd
  /-- After GROUP. -/
  | group
  /-- After ORDER. -/
  | order
  /-- After ASC or DESC. -/
  | orderEnd
  /-- In an expression. -/
  | expr (clause : Clause) (mode : Mode) (frames : List Frame)
  deriving DecidableEq, Repr

/-- Where the fragment of a clause belongs. -/
inductive Slot where
  | column | predicate | groupTerm | having | orderTerm | limit | offset
  deriving DecidableEq, Repr

/-- What the reading of a token does to the statement. -/
inductive Action where
  /-- Nothing. -/
  | skip
  /-- The token is a word of the current fragment. -/
  | word (unary : Bool)
  | distinct
  | wildcard
  /-- The token is the alias of the last column. -/
  | alias
  | source (path : String)
  deriving DecidableEq, Repr

/-- The reading of one token: the slot of a fragment that ends before it, what the token does, and
the place after it. -/
structure Step where
  ended : Option Slot := none
  action : Action := .skip
  place : Place
  deriving DecidableEq, Repr

/-! ## Inside an expression -/

/-- A word of the current fragment, and the place after it. -/
def Step.word (clause : Clause) (mode : Mode) (frames : List Frame) : Step :=
  ⟨none, .word false, .expr clause mode frames⟩

/-- An operand must start: NOT, a sign, or the operand itself. -/
def operandStep (clause : Clause) (frames : List Frame) (mayNegate : Bool) (token : Token)
    (next : Option Token) : Except Expected Step :=
  match token with
  | .number | .singleQuoted | .doubleQuoted | .keyword .null | .keyword .currentDate
  | .keyword .currentTime | .keyword .currentTimestamp => .ok (.word clause .operandEnd frames)
  | .ident => .ok (.word clause .name frames)
  | .symbol .openParen => .ok (.word clause .operand (.operators 1 :: .group :: frames))
  | .symbol .minus | .symbol .plus | .symbol .tilde =>
    .ok ⟨none, .word true, .expr clause .signed frames⟩
  | .keyword .case_ => .ok (.word clause .case_ frames)
  | .keyword .not_ =>
    if mayNegate then .ok ⟨none, .word true, .expr clause .operand (.operators notLevel :: frames)⟩
    else .error .expression
  | .keyword k =>
    if k.isLikeFamily && next == some (.symbol .openParen) then .ok (.word clause .call frames)
    else .error .expression
  | _ => .error .expression

/-- The mode and the frames after an operator that has been taken by the innermost of `frames`. -/
def Operator.enter (frames : List Frame) : Operator → Mode × List Frame
  | binary level => (.operand, .operators (level + 1) :: frames)
  | is_ => (.isOperand, .operators comparisonLevel :: frames)
  | in_ => (.inList, frames)
  | between => (.operand, .operators comparisonLevel :: .lowerBound :: frames)
  | like => (.operand, .operators comparisonLevel :: .pattern :: frames)
  | nullTest => (.end_, frames)
  | negation => (.negated, frames)

/-- What a token that follows a complete operand does. -/
inductive Resumption where
  /-- It belongs to the expression. -/
  | inside (mode : Mode) (frames : List Frame)
  /-- The expression is complete before it. -/
  | outside
  deriving DecidableEq, Repr

/-- The token after a complete operand, or none at the end of the statement: the innermost frame
that can take it does, and those inside it end. -/
def resume (token : Option Token) (next : Option Token) :
    List Frame → Except Expected Resumption
  | [] => .ok .outside
  | .operators least :: frames =>
    match token.bind (Operator.ofToken? next) with
    | some op =>
      if least ≤ op.level then
        let (mode, frames) := op.enter (.operators least :: frames)
        .ok (.inside mode frames)
      else resume token next frames
    | none => resume token next frames
  | .pattern :: frames =>
    if token = some (.keyword .escape) then
      .ok (.inside .operand (.operators comparisonLevel :: frames))
    else resume token next frames
  | .lowerBound :: frames =>
    if token = some (.keyword .and_) then
      .ok (.inside .operand (.operators comparisonLevel :: frames))
    else .error .andInBetween
  | .list :: frames =>
    if token = some (.symbol .comma) then .ok (.inside .operand (.operators 1 :: .list :: frames))
    else if token = some (.symbol .closeParen) then .ok (.inside .end_ frames)
    else .error .closeList
  | .arguments :: frames =>
    if token = some (.symbol .comma) then
      .ok (.inside .operand (.operators 1 :: .arguments :: frames))
    else if token = some (.symbol .closeParen) then .ok (.inside .operandEnd frames)
    else .error .closeCall
  | .group :: frames =>
    if token = some (.symbol .comma) then
      .ok (.inside .operand (.operators 1 :: .group :: frames))
    else if token = some (.symbol .closeParen) then .ok (.inside .operandEnd frames)
    else .error .closeParen
  | .caseSubject :: frames =>
    if token = some (.keyword .when_) then
      .ok (.inside .operand (.operators 1 :: .caseCondition :: frames))
    else .error .when_
  | .caseCondition :: frames =>
    if token = some (.keyword .then_) then
      .ok (.inside .operand (.operators 1 :: .caseResult :: frames))
    else .error .then_
  | .caseResult :: frames =>
    if token = some (.keyword .when_) then
      .ok (.inside .operand (.operators 1 :: .caseCondition :: frames))
    else if token = some (.keyword .else_) then
      .ok (.inside .operand (.operators 1 :: .caseDefault :: frames))
    else if token = some (.keyword .end_) then .ok (.inside .operandEnd frames)
    else .error .endCase
  | .caseDefault :: frames =>
    if token = some (.keyword .end_) then .ok (.inside .operandEnd frames)
    else .error .endCase

/-! ## Between clauses -/

/-- The start of an expression in a clause. -/
def Place.exprStart (clause : Clause) : Place :=
  .expr clause .operand [.operators 1]

/-- The start of a column: `*` or an expression. -/
def columnStep (token : Token) (next : Option Token) : Except Expected Step :=
  if token = .symbol .star then .ok ⟨none, .wildcard, .columnEnd⟩
  else operandStep .column [.operators 1] true token next

/-- The clauses after FROM, in their order. -/
inductive Tail where
  | where_ | group | order | limit
  deriving DecidableEq, Repr

/-- The rank of a clause in the order of clauses. -/
def Tail.rank : Tail → Nat
  | where_ => 0
  | group => 1
  | order => 2
  | limit => 3

/-- A token that opens a clause of at least the given rank. -/
def tailStep (least : Nat) (ended : Option Slot) (token : Token) : Except Expected Step :=
  let opens (clause : Tail) (place : Place) : Except Expected Step :=
    if least ≤ clause.rank then .ok ⟨ended, .skip, place⟩ else .error .nothing
  match token with
  | .keyword .where_ => opens .where_ (.exprStart .predicate)
  | .keyword .group => opens .group .group
  | .keyword .order => opens .order .order
  | .keyword .limit => opens .limit (.exprStart .limit)
  | _ => .error .nothing

/-- The slot that a complete expression of a clause fills. -/
def Clause.slot : Clause → Slot
  | column => .column
  | predicate => .predicate
  | groupTerm => .groupTerm
  | having => .having
  | orderTerm => .orderTerm
  | limit | count => .limit
  | offset => .offset

/-- The token after a complete expression of a clause. -/
def Clause.endStep (clause : Clause) (token : Token) : Except Expected Step :=
  match clause, token with
  | .column, .symbol .comma => .ok ⟨some .column, .skip, .column⟩
  | .column, .keyword .as_ => .ok ⟨some .column, .skip, .alias⟩
  | .column, .ident => .ok ⟨some .column, .alias, .columnEnd⟩
  | .column, .source path => .ok ⟨some .column, .source path, .sourceEnd⟩
  | .column, _ => .error .source
  | .predicate, token => tailStep 1 (some .predicate) token
  | .groupTerm, .symbol .comma => .ok ⟨some .groupTerm, .skip, .exprStart .groupTerm⟩
  | .groupTerm, .keyword .having => .ok ⟨some .groupTerm, .skip, .exprStart .having⟩
  | .groupTerm, token => tailStep 2 (some .groupTerm) token
  | .having, token => tailStep 2 (some .having) token
  | .orderTerm, .symbol .comma => .ok ⟨some .orderTerm, .skip, .exprStart .orderTerm⟩
  | .orderTerm, .keyword .asc | .orderTerm, .keyword .desc => .ok ⟨none, .word false, .orderEnd⟩
  | .orderTerm, token => tailStep 3 (some .orderTerm) token
  | .limit, .keyword .offset => .ok ⟨some .limit, .skip, .exprStart .offset⟩
  | .limit, .symbol .comma => .ok ⟨some .offset, .skip, .exprStart .count⟩
  | .limit, _ | .count, _ | .offset, _ => .error .nothing

/-- The token after a complete operand: inside the expression, or after it. -/
def afterOperand (clause : Clause) (frames : List Frame) (token : Token) (next : Option Token) :
    Except Expected Step :=
  match resume (some token) next frames with
  | .ok (.inside mode frames) => .ok (.word clause mode frames)
  | .ok .outside => clause.endStep token
  | .error e => .error e

/-- A token that may name a column or a collation. -/
def Token.isName : Token → Bool
  | .ident | .singleQuoted | .doubleQuoted => true
  | _ => false

/-- The reading of a token inside an expression. -/
def exprStep (clause : Clause) (mode : Mode) (frames : List Frame) (token : Token)
    (next : Option Token) : Except Expected Step :=
  /- One certain token must come. -/
  let only (wanted : Token) (mode : Mode) (expected : Expected) : Except Expected Step :=
    if token = wanted then .ok (.word clause mode frames) else .error expected
  match mode with
  | .operand => operandStep clause frames true token next
  | .signed => operandStep clause frames false token next
  | .isOperand =>
    if token = .keyword .not_ then .ok (.word clause .operand frames)
    else operandStep clause frames true token next
  | .name =>
    if token = .symbol .dot then .ok (.word clause .member frames)
    else if token = .symbol .openParen then .ok (.word clause .argumentList frames)
    else if token = .keyword .collate then .ok (.word clause .collation frames)
    else afterOperand clause frames token next
  | .member => only .ident .operandEnd .columnAfterDot
  | .call => only (.symbol .openParen) .argumentList .openParen
  | .argumentList =>
    if token = .symbol .star then .ok (.word clause .callEnd frames)
    else if token = .symbol .closeParen then .ok (.word clause .operandEnd frames)
    else if token = .keyword .distinct then
      .ok (.word clause .operand (.operators 1 :: .arguments :: frames))
    else operandStep clause (.operators 1 :: .arguments :: frames) true token next
  | .callEnd => only (.symbol .closeParen) .operandEnd .closeCall
  | .case_ =>
    if token = .keyword .when_ then
      .ok (.word clause .operand (.operators 1 :: .caseCondition :: frames))
    else operandStep clause (.operators 1 :: .caseSubject :: frames) true token next
  | .operandEnd =>
    if token = .keyword .collate then .ok (.word clause .collation frames)
    else afterOperand clause frames token next
  | .collation =>
    if token.isName then .ok (.word clause .operandEnd frames) else .error .collationName
  | .end_ => afterOperand clause frames token next
  | .inList => only (.symbol .openParen) .inItems .openList
  | .inItems =>
    if token = .symbol .closeParen then .ok (.word clause .end_ frames)
    else operandStep clause (.operators 1 :: .list :: frames) true token next
  | .negated =>
    match token with
    | .keyword .in_ => .ok (.word clause .inList frames)
    | .keyword .between =>
      .ok (.word clause .operand (.operators comparisonLevel :: .lowerBound :: frames))
    | .keyword .null => .ok (.word clause .end_ frames)
    | .keyword k =>
      if k.isLikeFamily then
        .ok (.word clause .operand (.operators comparisonLevel :: .pattern :: frames))
      else .error .expression
    | _ => .error .expression

/-! ## The automaton -/

/-- The reading of one token, `next` being the token after it. -/
def Place.step (place : Place) (token : Token) (next : Option Token) : Except Expected Step :=
  match place with
  | .start => if token = .keyword .select then .ok ⟨none, .skip, .quantifier⟩ else .error .select
  | .quantifier =>
    if token = .keyword .distinct then .ok ⟨none, .distinct, .column⟩
    else if token = .keyword .all then .ok ⟨none, .skip, .column⟩
    else columnStep token next
  | .column => columnStep token next
  | .alias => if token.isName then .ok ⟨none, .alias, .columnEnd⟩ else .error .aliasAfterAs
  | .columnEnd =>
    match token with
    | .symbol .comma => .ok ⟨none, .skip, .column⟩
    | .source path => .ok ⟨none, .source path, .sourceEnd⟩
    | _ => .error .source
  | .sourceEnd => tailStep 0 none token
  | .group =>
    if token = .keyword .by_ then .ok ⟨none, .skip, .exprStart .groupTerm⟩
    else .error .byAfterGroup
  | .order =>
    if token = .keyword .by_ then .ok ⟨none, .skip, .exprStart .orderTerm⟩
    else .error .byAfterOrder
  | .orderEnd =>
    if token = .symbol .comma then .ok ⟨some .orderTerm, .skip, .exprStart .orderTerm⟩
    else tailStep 3 (some .orderTerm) token
  | .expr clause mode frames => exprStep clause mode frames token next

/-- The end of a statement after a complete operand: the slot that the expression fills. -/
def endAfterOperand (clause : Clause) (frames : List Frame) : Except Expected (Option Slot) :=
  match resume none none frames with
  | .error e => .error e
  | .ok _ => if clause = .column then .error .source else .ok (some clause.slot)

/-- What an expression asks for when the statement ends inside it. -/
def Mode.wanted : Mode → Expected
  | member => .columnAfterDot
  | call => .openParen
  | callEnd => .closeCall
  | collation => .collationName
  | inList => .openList
  | _ => .expression

/-- The end of a statement: the slot of the last fragment, or what is still missing. -/
def Place.finish : Place → Except Expected (Option Slot)
  | .start => .error .select
  | .quantifier | .column => .error .expression
  | .alias => .error .aliasAfterAs
  | .columnEnd => .error .source
  | .sourceEnd => .ok none
  | .group => .error .byAfterGroup
  | .order => .error .byAfterOrder
  | .orderEnd => .ok (some .orderTerm)
  | .expr clause mode frames =>
    match mode with
    | .name | .operandEnd | .end_ => endAfterOperand clause frames
    | mode => .error mode.wanted

end TreeQuery.Query
