/-!
# What can be wrong with a statement

Places in a statement are given as byte offsets.

The messages are those of `tokenize`, `parse`, `expect` and `error_here`.
-/

namespace TreeQuery.Query

/-- What the grammar asks for at a place. -/
inductive Expected where
  | select | source | byAfterGroup | byAfterOrder | aliasAfterAs
  | expression | columnAfterDot | collationName
  | openParen | closeParen | closeCall | openList | closeList
  | andInBetween | when_ | then_ | endCase
  /-- Nothing more can follow. -/
  | nothing
  deriving DecidableEq, Repr

/-- The wording of an expectation. -/
def Expected.description : Expected → String
  | select => "SELECT"
  | source => "FROM"
  | byAfterGroup => "BY after GROUP"
  | byAfterOrder => "BY after ORDER"
  | aliasAfterAs => "alias after AS"
  | expression => "expression"
  | columnAfterDot => "column name after '.'"
  | collationName => "collation name"
  | openParen => "'('"
  | closeParen => "')'"
  | closeCall => "')' closing call"
  | openList => "'(' after IN"
  | closeList => "')' closing IN list"
  | andInBetween => "AND in BETWEEN"
  | when_ => "WHEN"
  | then_ => "THEN"
  | endCase => "END closing CASE"
  | nothing => "end of query"

/-- Why a text is no statement. -/
inductive SyntaxError where
  /-- No token starts at this byte. -/
  | unrecognized (byte : Nat)
  /-- The word FROM stands at this byte without a readable target. -/
  | badSource (byte : Nat)
  /-- There is no token at all. -/
  | empty
  /-- The lexeme at this byte is not what the grammar asks for. -/
  | unexpected (expected : Expected) (byte : Nat)
  /-- The statement ends where the grammar asks for more. -/
  | incomplete (expected : Expected)
  deriving DecidableEq, Repr

/-- The wording of a syntax error. -/
def SyntaxError.message : SyntaxError → String
  | unrecognized byte => s!"unrecognized input near byte {byte}"
  | badSource byte => s!"missing or malformed FROM path near byte {byte}"
  | empty => "empty statement"
  | unexpected .nothing byte => s!"unexpected token near byte {byte}"
  | unexpected expected byte => s!"expected {expected.description} near byte {byte}"
  | incomplete expected => s!"expected {expected.description} but reached end of query"

end TreeQuery.Query
