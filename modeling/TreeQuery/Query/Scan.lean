import TreeQuery.Query.Target
import TreeQuery.Query.Token
import TreeQuery.Query.SyntaxError

/-!
# Reading the tokens of a statement

`tokenize` cuts a statement into lexemes. At each place the longest token wins, and of a keyword
and a name of the same length the keyword. Between tokens only `Text.isGap` may stand.

A token is found from its first character and the characters after it: `Token.scan` says which
token starts there and how many of the following characters belong to it.

`tokenize` is the function of this name, `scanSource` is `lex_from_target`, and `Token.scan` stands
for the matching that is derived from the patterns of `Token`.
-/

namespace TreeQuery.Query

/-! ## Character classes -/

/-- A character that starts a name. -/
def isNameStart (c : Char) : Bool :=
  c.isAlpha || c == '_'

/-- A character inside a name. -/
def isNameChar (c : Char) : Bool :=
  c.isAlphanum || c == '_'

/-- A hexadecimal digit. -/
def isHexDigit (c : Char) : Bool :=
  c.isDigit || ('a' ≤ c && c ≤ 'f') || ('A' ≤ c && c ≤ 'F')

/-! ## Lengths -/

/-- How many digits stand in front. -/
def digitsLength (cs : List Char) : Nat :=
  (cs.takeWhile Char.isDigit).length

/-- The length of an exponent in front: `e` or `E`, perhaps a sign, and digits; 0 if there is
none. -/
def exponentLength : List Char → Nat
  | [] => 0
  | e :: cs =>
    if e = 'e' ∨ e = 'E' then
      let signed := match cs with
        | c :: _ => if c = '+' ∨ c = '-' then 1 else 0
        | [] => 0
      match digitsLength (cs.drop signed) with
      | 0 => 0
      | n => 1 + signed + n
    else 0

/-- The length of a decimal fraction in front: a point and digits, of which there may be none. -/
def fractionLength : List Char → Nat
  | '.' :: cs => 1 + digitsLength cs
  | _ => 0

/-- How many characters continue a number that starts with the digit `c`. -/
def numberLength (c : Char) (cs : List Char) : Nat :=
  let whole := digitsLength cs
  let fraction := fractionLength (cs.drop whole)
  let decimal := whole + fraction + exponentLength (cs.drop (whole + fraction))
  match c, cs with
  | '0', x :: ds =>
    if x = 'x' ∨ x = 'X' then
      match (ds.takeWhile isHexDigit).length with
      | 0 => decimal
      | n => 1 + n
    else decimal
  | _, _ => decimal

/-- How many characters follow an opening quote up to and including its closing quote. Two quotes
in a row do not close. -/
def quotedLength (q : Char) : List Char → Option Nat
  | [] => none
  | [c] => if c = q then some 1 else none
  | c :: d :: cs =>
    if c = q then
      if d = q then (quotedLength q cs).map (· + 2) else some 1
    else (quotedLength q (d :: cs)).map (· + 1)

/-! ## Words and symbols -/

/-- The keyword that a word spells, in any case of its letters. -/
def Keyword.ofWord? (word : List Char) : Option Keyword :=
  Keyword.list.find? fun k => k.word.toList == word.map Char.toLower

/-- The symbol of two characters. -/
def Symbol.ofPair? : Char → Char → Option Symbol
  | '|', '|' => some .concat
  | '<', '<' => some .shiftLeft
  | '>', '>' => some .shiftRight
  | '<', '=' => some .le
  | '>', '=' => some .ge
  | '=', '=' => some .eqEq
  | '!', '=' => some .notEq
  | '<', '>' => some .ltGt
  | _, _ => none

/-- The symbol of one character. -/
def Symbol.ofChar? : Char → Option Symbol
  | '*' => some .star
  | '/' => some .slash
  | '%' => some .percent
  | '+' => some .plus
  | '-' => some .minus
  | '&' => some .bitAnd
  | '|' => some .bitOr
  | '<' => some .lt
  | '>' => some .gt
  | '=' => some .eq
  | '~' => some .tilde
  | '(' => some .openParen
  | ')' => some .closeParen
  | ',' => some .comma
  | '.' => some .dot
  | _ => none

/-- The longest symbol that starts with `c`, and how many of the characters after `c` belong to
it. -/
def Symbol.scan (c : Char) (cs : List Char) : Option (Symbol × Nat) :=
  let single := (Symbol.ofChar? c).map (·, 0)
  match cs with
  | d :: _ => ((Symbol.ofPair? c d).map (·, 1)).or single
  | [] => single

/-! ## Tokens -/

/-- Why no token starts at a place. -/
inductive ScanFault where
  /-- No token starts like this. -/
  | unrecognized
  /-- The word FROM stands here, without a target that can be read. -/
  | badSource
  deriving DecidableEq, Repr

/-- The word FROM has been read and `cs` follows: white space and a target belong to it. -/
def scanSource (cs : List Char) : Except ScanFault (Token × Nat) :=
  let space := cs.takeWhile Text.isBlank
  match Target.scan (cs.drop space.length) with
  | some target => .ok (.source (String.ofList target.path), space.length + target.length)
  | none => .error .badSource

/-- The token of a whole word: FROM with its target, a keyword or a name. -/
def scanWord (c : Char) (cs : List Char) : Except ScanFault (Token × Nat) :=
  let rest := cs.takeWhile isNameChar
  let word := c :: rest
  if word.map Char.toLower = "from".toList then
    (scanSource (cs.drop rest.length)).map fun (token, n) => (token, rest.length + n)
  else
    match Keyword.ofWord? word with
    | some k => .ok (.keyword k, rest.length)
    | none => .ok (.ident, rest.length)

/-- The token of a quoted text that opens with `q`. -/
def scanQuoted (q : Char) (token : Token) (cs : List Char) : Except ScanFault (Token × Nat) :=
  match quotedLength q cs with
  | some n => .ok (token, n)
  | none => .error .unrecognized

/-- The token that starts with `c`, and how many of the characters after `c` belong to it. -/
def Token.scan (c : Char) (cs : List Char) : Except ScanFault (Token × Nat) :=
  if isNameStart c then scanWord c cs
  else if c.isDigit then .ok (.number, numberLength c cs)
  else if c = '.' ∧ 0 < digitsLength cs then
    let digits := digitsLength cs
    .ok (.number, digits + exponentLength (cs.drop digits))
  else if c = '"' then scanQuoted '"' .doubleQuoted cs
  else if c = '\'' then scanQuoted '\'' .singleQuoted cs
  else
    match Symbol.scan c cs with
    | some (s, n) => .ok (.symbol s, n)
    | none => .error .unrecognized

/-- The lexemes of the characters that stand at byte `start` of a statement. -/
def lexemesFrom (start : Nat) : List Char → Except SyntaxError (List Lexeme)
  | [] => .ok []
  | c :: cs =>
    if Text.isGap c then lexemesFrom (start + c.utf8Size) cs
    else
      match Token.scan c cs with
      | .error .unrecognized => .error (.unrecognized start)
      | .error .badSource => .error (.badSource start)
      | .ok (token, n) =>
        let text := c :: cs.take n
        (lexemesFrom (start + Text.byteLength text) (cs.drop n)).map (⟨token, start, text⟩ :: ·)
termination_by cs => cs.length
decreasing_by
  · simp
  · simp only [List.length_cons, List.length_drop]; omega

/-- The lexemes of a statement, or the first place at which no token starts. -/
def tokenize (text : String) : Except SyntaxError (List Lexeme) :=
  lexemesFrom 0 text.toList

end TreeQuery.Query
