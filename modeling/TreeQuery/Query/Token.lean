/-!
# Tokens of a statement

A statement is made of keywords, names, literals and symbols. The word FROM is no token of its
own: it is read together with the path that it names, as `Token.source`.

`Token` and `Lexeme` are the types of these names; the keywords and the symbols among the tokens are
types of their own here.
-/

namespace TreeQuery.Query

/-- The reserved words, FROM apart. A trailing underscore only keeps a name apart from Lean's
own words. -/
inductive Keyword where
  | select | distinct | all | where_ | group | by_ | having | order | limit | offset
  | as_ | asc | desc | collate
  | and_ | or_ | not_ | is_ | isNull | notNull | null | in_ | between
  | like | glob | regexp | match_ | escape
  | case_ | when_ | then_ | else_ | end_
  | currentDate | currentTime | currentTimestamp
  deriving DecidableEq, Repr

namespace Keyword

/-- The lower-case spelling. -/
def word : Keyword → String
  | select => "select" | distinct => "distinct" | all => "all" | where_ => "where"
  | group => "group" | by_ => "by" | having => "having" | order => "order"
  | limit => "limit" | offset => "offset" | as_ => "as" | asc => "asc" | desc => "desc"
  | collate => "collate" | and_ => "and" | or_ => "or" | not_ => "not" | is_ => "is"
  | isNull => "isnull" | notNull => "notnull" | null => "null" | in_ => "in"
  | between => "between" | like => "like" | glob => "glob" | regexp => "regexp"
  | match_ => "match" | escape => "escape" | case_ => "case" | when_ => "when"
  | then_ => "then" | else_ => "else" | end_ => "end" | currentDate => "current_date"
  | currentTime => "current_time" | currentTimestamp => "current_timestamp"

/-- Every keyword once. -/
def list : List Keyword :=
  [select, distinct, all, where_, group, by_, having, order, limit, offset, as_, asc, desc,
    collate, and_, or_, not_, is_, isNull, notNull, null, in_, between, like, glob, regexp,
    match_, escape, case_, when_, then_, else_, end_, currentDate, currentTime, currentTimestamp]

theorem mem_list (k : Keyword) : k ∈ list := by cases k <;> decide

/-- The words LIKE, GLOB, REGEXP and MATCH: operators that are also function names. -/
def isLikeFamily : Keyword → Bool
  | like | glob | regexp | match_ => true
  | _ => false

end Keyword

/-- Operators and punctuation. -/
inductive Symbol where
  | concat | star | slash | percent | plus | minus | shiftLeft | shiftRight | bitAnd | bitOr
  | lt | le | gt | ge | eq | eqEq | notEq | ltGt | tilde
  | openParen | closeParen | comma | dot
  deriving DecidableEq, Repr

/-- The written form of a symbol. -/
def Symbol.spelling : Symbol → String
  | concat => "||" | star => "*" | slash => "/" | percent => "%" | plus => "+" | minus => "-"
  | shiftLeft => "<<" | shiftRight => ">>" | bitAnd => "&" | bitOr => "|"
  | lt => "<" | le => "<=" | gt => ">" | ge => ">=" | eq => "=" | eqEq => "==" | notEq => "!="
  | ltGt => "<>" | tilde => "~"
  | openParen => "(" | closeParen => ")" | comma => "," | dot => "."

/-- One token of a statement, without its text. -/
inductive Token where
  | keyword (k : Keyword)
  /-- FROM and the path it names, quotes and escapes undone. -/
  | source (path : String)
  | ident
  | number
  | doubleQuoted
  | singleQuoted
  | symbol (s : Symbol)
  deriving DecidableEq, Repr

/-- A token with its text and the byte at which that text starts in the statement. -/
structure Lexeme where
  token : Token
  start : Nat
  text : List Char
  deriving DecidableEq, Repr

end TreeQuery.Query
