import TreeQuery.Database.Comparison
import TreeQuery.Database.Fault
import TreeQuery.Database.Pattern

/-!
# Functions

The functions of values. Those of the LIKE family are also what their operators stand for: the
operator LIKE is the function `like` with the pattern first.

No function of the program is behind this module: it is part of what stands for the engine
(`Engine.ofTables`).
-/

namespace TreeQuery.Database

/-- The functions of values. -/
inductive Function where
  | length | upper | lower | coalesce | zeroblob
  | like | glob
  | match_
  /-- The least of several values. -/
  | least
  /-- The greatest of several values. -/
  | greatest
  deriving DecidableEq, Repr

namespace Function

/-- The functions that are called by a name of their own. -/
def named : List Function := [length, upper, lower, coalesce, zeroblob, like, glob, match_]

/-- The name of a function. -/
def name : Function → String
  | length => "length" | upper => "upper" | lower => "lower" | coalesce => "coalesce"
  | zeroblob => "zeroblob" | like => "like" | glob => "glob" | match_ => "match"
  | least => "min" | greatest => "max"

/-- Whether a function takes so many arguments. -/
def takes : Function → Nat → Bool
  | length, n | upper, n | lower, n | zeroblob, n => n == 1
  | coalesce, n | least, n | greatest, n => 2 ≤ n
  | like, n => n == 2 || n == 3
  | glob, n | match_, n => n == 2

/-- The characters of a text up to the first of number zero, where functions stop reading. -/
def readable (s : String) : List Char := s.toList.takeWhile (· != '\x00')

/-- The length of a value: characters of a text, bytes of anything else that has them. -/
def lengthOf : Value → Value
  | .null => .null
  | .blob bytes => .integer (.ofNat bytes.length)
  | v => .integer (.ofNat (readable (v.toText?.getD "")).length)

/-- A value as text with every Latin letter changed. -/
def changeCase (f : Char → Char) (v : Value) : Value :=
  match v.toText? with
  | some s => .text (s.map f)
  | none => .null

/-- The longest value that there can be. -/
def sizeLimit : Nat := 1000000000

/-- The longest pattern that there can be. -/
def patternLimit : Nat := 50000

/-- So many zero bytes. -/
def zeros (n : Int) : Except Fault Value :=
  if n.toNat ≤ sizeLimit then .ok (.blob (List.replicate n.toNat 0)) else .error .tooBig

/-- Whether a text matches a pattern, if neither is missing. -/
def matchText (test : List Char → List Char → Bool) (pattern text : Value) :
    Except Fault Value :=
  match pattern.toText?, text.toText? with
  | some p, some t =>
    if patternLimit < p.utf8ByteSize then .error .longPattern
    else .ok (.ofBool (test (readable p) (readable t)))
  | some p, none => if patternLimit < p.utf8ByteSize then .error .longPattern else .ok .null
  | none, _ => .ok .null

/-- LIKE with a character that takes the meaning from the one behind it. -/
def likeEscaped (pattern text escape : Value) : Except Fault Value :=
  match escape.toText? with
  | none => .ok .null
  | some s =>
    match readable s with
    | [c] => matchText (Database.like (some c)) pattern text
    | _ => .error .badEscape

/-- The value that is chosen from several by the order of each to the best one before it, none if
one of them is missing. -/
def choose (collation : Collation) (better : Ordering → Bool) (first : Value)
    (rest : List Value) : Value :=
  if first.isNull || rest.any Value.isNull then .null
  else rest.foldl (fun best v => if better (v.compare collation best) then v else best) first

/-- The least of several values, and the last one of several that are equal. -/
def leastOf (collation : Collation) : Value → List Value → Value :=
  choose collation (· != .gt)

/-- The greatest of several values, and the first one of several that are equal. -/
def greatestOf (collation : Collation) : Value → List Value → Value :=
  choose collation (· == .gt)

/-- The result of a function. Arguments are looked at only as far as they are needed. -/
def apply (f : Function) (collation : Collation) :
    List (Except Fault Value) → Except Fault Value
  | args =>
    match f with
    | coalesce => firstKnown args
    | _ => do strict f collation (← args.mapM id)
where
  /-- The first value that is not missing. -/
  firstKnown : List (Except Fault Value) → Except Fault Value
    | [] => .ok .null
    | arg :: rest => do
      let v ← arg
      if v.isNull then firstKnown rest else return v
  /-- A function that looks at all of its arguments. -/
  strict : Function → Collation → List Value → Except Fault Value
    | length, _, [v] => .ok (lengthOf v)
    | upper, _, [v] => .ok (changeCase Char.toUpper v)
    | lower, _, [v] => .ok (changeCase Char.toLower v)
    | zeroblob, _, [v] => zeros v.toInteger.toInt
    | like, _, [pattern, text] => matchText (Database.like none) pattern text
    | like, _, [pattern, text, escape] => likeEscaped pattern text escape
    | glob, _, [pattern, text] => matchText Database.glob pattern text
    | match_, _, _ => .error .noMatchFunction
    | least, c, v :: vs => .ok (leastOf c v vs)
    | greatest, c, v :: vs => .ok (greatestOf c v vs)
    | f, _, _ => .error (.argumentCount f.name)

end Function

end TreeQuery.Database
