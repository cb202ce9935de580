import TreeQuery.Text.Blank

/-!
# The target of FROM

FROM names a directory. The name is read straight off the text, as `./nested/path` is no sequence
of SQL tokens. It stands bare, up to white space, a quote or a comma, or between quotes. Between
quotes a backslash makes the next character literal and a doubled quote stands for one quote.

`Target.read?` is `scan_path`, and `Target.quotedRest` is the loop of its `scan_quoted`.
-/

namespace TreeQuery.Query

/-- A target read off the front of a text: the path it spells, and how many characters and how many
bytes it takes. -/
structure Target where
  path : List Char
  length : Nat
  bytes : Nat
  deriving DecidableEq, Repr

namespace Target

/-- What is left of a quoted target when only its closing quote is to come. -/
def close (q : Char) : Target := ⟨[], 1, q.utf8Size⟩

/-- The target with one more unit in front, which stands for `c`. -/
def push (c : Char) (unit : List Char) (t : Target) : Target :=
  ⟨c :: t.path, unit.length + t.length, Text.byteLength unit + t.bytes⟩

/-- The rest of a quoted target, its opening quote already read. There is none if the closing
quote is missing. -/
def quotedRest (q : Char) : List Char → Option Target
  | [] => none
  | ['\\'] => none
  | [c] => if c = q then some (close q) else none
  | c :: d :: cs =>
    if c = '\\' then (quotedRest q cs).map (push d [c, d])
    else if c = q then
      if d = q then (quotedRest q cs).map (push q [c, d]) else some (close q)
    else (quotedRest q (d :: cs)).map (push c [c])

/-- A character that ends a bare target. -/
def endsBare (c : Char) : Bool :=
  Text.isBlank c || c == '"' || c == '\'' || c == ','

/-- Reads a target off the front of a text. A bare target has at least one character and does not
start with a digit. -/
def scan : List Char → Option Target
  | [] => none
  | c :: cs =>
    if c = '"' ∨ c = '\'' then
      (quotedRest c cs).map fun t => ⟨t.path, 1 + t.length, c.utf8Size + t.bytes⟩
    else if c.isDigit ∨ endsBare c then none
    else
      let name := c :: cs.takeWhile fun d => !endsBare d
      some ⟨name, name.length, Text.byteLength name⟩

/-- The target in front of a text: how many bytes it takes, and the path that it spells. -/
def read? (input : String) : Option (Nat × String) :=
  (scan input.toList).map fun t => (t.bytes, String.ofList t.path)

end Target

end TreeQuery.Query
