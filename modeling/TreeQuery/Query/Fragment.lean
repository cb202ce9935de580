import TreeQuery.Query.Token

/-!
# Fragments

A fragment is the piece of a statement that stands in one clause: the words of an expression, in
order. `Fragment.text` writes it down again with one spelling of the space between words, so that
two statements that differ in space alone have equal fragments.

There is a space between two words unless one of them asks to be joined: parentheses, commas and
dots are written tight, a sign stands next to its operand, and the argument list next to the name
of its function. Two signs are kept apart, since `--` would begin a comment.

`Fragment.text` is `render` and `spaced` is `space_before`. What `is_prefix_operator` finds out, a
`Word` knows.
-/

namespace TreeQuery.Query

/-- A token inside a fragment with its text. `unary` marks the operators that stand before their
one operand: NOT and the signs `-`, `+` and `~`. -/
structure Word where
  token : Token
  text : List Char
  unary : Bool
  deriving DecidableEq, Repr

/-- A sign: any unary operator but NOT. -/
def Word.isSign (w : Word) : Bool :=
  w.unary && w.token != .keyword .not_

/-- A word that may be the name of a function. -/
def Word.isFunctionName (w : Word) : Bool :=
  match w.token with
  | .ident => true
  | .keyword k => k.isLikeFamily
  | _ => false

/-- The words of a piece of a statement, in order. -/
abbrev Fragment := List Word

namespace Fragment

/-- Whether a space stands between two neighbouring words. -/
def spaced (before after : Word) : Bool :=
  if after.token = .symbol .comma ∨ after.token = .symbol .closeParen ∨
      after.token = .symbol .dot then false
  else if before.token = .symbol .openParen ∨ before.token = .symbol .dot then false
  else if before.isSign && !after.unary then false
  else !(after.token = .symbol .openParen && before.isFunctionName)

/-- The characters of the words after `before`. -/
def charsAfter (before : Word) : Fragment → List Char
  | [] => []
  | w :: ws => (if spaced before w then [' '] else []) ++ w.text ++ charsAfter w ws

/-- The characters of a fragment. -/
def chars : Fragment → List Char
  | [] => []
  | w :: ws => w.text ++ charsAfter w ws

/-- The written form of a fragment. -/
def text (f : Fragment) : String :=
  String.ofList f.chars

end Fragment

end TreeQuery.Query
