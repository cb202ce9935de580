import TreeQuery.Query.Fragment
import TreeQuery.Query.Place
import TreeQuery.Query.Scan
import TreeQuery.Query.Statement
import TreeQuery.Text.Quoted

/-!
# Reading a statement

`Statement.ofText` reads a text as a statement. The automaton of `Place` is run over its lexemes,
and what each step says about its lexeme is gathered in a `Draft`: the statement so far and the
words of the fragment that is being read.

`Statement.ofText` is `parse`.
-/

namespace TreeQuery.Query

/-- A statement that is being read, and the words read of its current fragment. -/
structure Draft where
  statement : Statement Fragment := {}
  words : Fragment := []
  deriving DecidableEq, Repr

/-- The last column gets an alias. -/
def Statement.aliasLast (s : Statement Fragment) (name : String) : Statement Fragment :=
  match s.columns.getLast? with
  | some (.expr piece _) =>
    { s with columns := s.columns.dropLast ++ [.expr piece (some name)] }
  | _ => s

/-- A complete fragment goes into its slot. -/
def Statement.put (s : Statement Fragment) (f : Fragment) : Slot → Statement Fragment
  | .column => { s with columns := s.columns ++ [.expr f none] }
  | .predicate => { s with predicate := some f }
  | .groupTerm => { s with groupBy := s.groupBy ++ [f] }
  | .having => { s with having := some f }
  | .orderTerm => { s with orderBy := s.orderBy ++ [f] }
  | .limit => { s with limit := some f }
  | .offset => { s with offset := some f }

namespace Draft

/-- The current fragment ends if it has a slot to go to. -/
def close (d : Draft) : Option Slot → Draft
  | some slot => ⟨d.statement.put d.words slot, []⟩
  | none => d

/-- What a lexeme does. -/
def act (d : Draft) (lexeme : Lexeme) : Action → Draft
  | .skip => d
  | .word unary => { d with words := d.words ++ [⟨lexeme.token, lexeme.text, unary⟩] }
  | .distinct => { d with statement := { d.statement with distinct := true } }
  | .wildcard =>
    { d with statement := { d.statement with columns := d.statement.columns ++ [.wildcard] } }
  | .alias =>
    { d with statement := d.statement.aliasLast (String.ofList (Text.unquote lexeme.text)) }
  | .source path => { d with statement := { d.statement with path := path } }

end Draft

/-- Reads lexemes from a place in a statement on to its end. -/
def readFrom (place : Place) (draft : Draft) :
    List Lexeme → Except SyntaxError (Statement Fragment)
  | [] =>
    match place.finish with
    | .ok ended => .ok (draft.close ended).statement
    | .error expected => .error (.incomplete expected)
  | lexeme :: rest =>
    match place.step lexeme.token (rest.head?.map Lexeme.token) with
    | .ok s => readFrom s.place ((draft.close s.ended).act lexeme s.action) rest
    | .error expected => .error (.unexpected expected lexeme.start)

/-- The statement that a list of lexemes is. -/
def Statement.ofLexemes (lexemes : List Lexeme) : Except SyntaxError (Statement Fragment) :=
  if lexemes.isEmpty then .error .empty else readFrom .start {} lexemes

/-- The statement that a text is, with the words of its fragments. -/
def Statement.outline (text : String) : Except SyntaxError (Statement Fragment) := do
  Statement.ofLexemes (← tokenize text)

/-- The statement that a text is. -/
def Statement.ofText (text : String) : Except SyntaxError (Statement String) :=
  (Statement.outline text).map (Statement.map Fragment.text)

end TreeQuery.Query
