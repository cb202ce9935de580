/-!
# Patterns

`like` has `%` for any text and `_` for any character, and does not tell the two cases of a Latin
letter apart; a character may be chosen that takes the meaning from the one behind it. `glob` has
`*`, `?` and sets of characters in brackets, and tells all characters apart.

No function of the program is behind this module: it is part of what stands for the engine
(`Engine.ofTables`).
-/

namespace TreeQuery.Database

/-- The same character, the case of Latin letters aside. -/
def sameLetter (a b : Char) : Bool := a.toLower == b.toLower

/-- Whether a text matches a pattern of LIKE. -/
def like (escape? : Option Char) (pattern text : List Char) : Bool :=
  match pattern, text with
  | [], text => text.isEmpty
  | p :: ps, text =>
    if some p = escape? then
      match ps, text with
      | q :: qs, c :: cs => sameLetter q c && like escape? qs cs
      | _, _ => false
    else if p = '%' then
      like escape? ps text ||
        match text with
        | [] => false
        | _ :: cs => like escape? (p :: ps) cs
    else
      match text with
      | [] => false
      | c :: cs => (p = '_' || sameLetter p c) && like escape? ps cs
termination_by pattern.length + text.length

/-! ## Sets of characters -/

/-- A set of characters of a pattern. -/
structure CharacterSet where
  inverted : Bool
  /-- The first and the last character of every range. -/
  ranges : List (Char × Char)
  deriving DecidableEq, Repr

/-- Whether a character is in a set. -/
def CharacterSet.contains (s : CharacterSet) (c : Char) : Bool :=
  s.inverted != s.ranges.any fun (first, last) => first ≤ c && c ≤ last

/-- The ranges of a set up to its closing bracket, and what comes after it. The character before a
dash, if it can begin a range, is `prior?`. -/
def readRanges (prior? : Option Char) :
    List Char → Option (List (Char × Char) × List Char)
  | [] => none
  | ']' :: rest => some ([], rest)
  | '-' :: last :: rest =>
    match prior? with
    | some first =>
      if last = ']' then
        (readRanges (some '-') (last :: rest)).map fun (rs, r) => (('-', '-') :: rs, r)
      else (readRanges none rest).map fun (rs, r) => ((first, last) :: rs, r)
    | none => (readRanges (some '-') (last :: rest)).map fun (rs, r) => (('-', '-') :: rs, r)
  | c :: rest => (readRanges (some c) rest).map fun (rs, r) => ((c, c) :: rs, r)
termination_by cs => cs.length

/-- A set behind its opening bracket, and what comes after it. A closing bracket that comes first
is a member. -/
def readSet (cs : List Char) : Option (CharacterSet × List Char) :=
  let (inverted, cs) := match cs with
    | '^' :: rest => (true, rest)
    | cs => (false, cs)
  match cs with
  | ']' :: rest => (readRanges none rest).map fun (rs, r) => (⟨inverted, (']', ']') :: rs⟩, r)
  | cs => (readRanges none cs).map fun (rs, r) => (⟨inverted, rs⟩, r)

/-- One piece of a pattern of GLOB. -/
inductive GlobPiece where
  | any
  | one
  | set (s : CharacterSet)
  | char (c : Char)
  deriving DecidableEq, Repr

/-- The pieces of a pattern, if every set in it ends. -/
def globPieces : Nat → List Char → Option (List GlobPiece)
  | 0, _ => some []
  | _, [] => some []
  | fuel + 1, '[' :: cs => do
    let (s, rest) ← readSet cs
    return .set s :: (← globPieces fuel rest)
  | fuel + 1, c :: cs => do
    let piece := if c = '*' then .any else if c = '?' then .one else .char c
    return piece :: (← globPieces fuel cs)

/-- Whether a text matches the pieces of a pattern. -/
def globMatches (pieces : List GlobPiece) (text : List Char) : Bool :=
  match pieces, text with
  | [], text => text.isEmpty
  | .any :: ps, text =>
    globMatches ps text ||
      match text with
      | [] => false
      | _ :: cs => globMatches (.any :: ps) cs
  | .one :: ps, _ :: cs => globMatches ps cs
  | .set s :: ps, c :: cs => s.contains c && globMatches ps cs
  | .char p :: ps, c :: cs => p == c && globMatches ps cs
  | _, [] => false
termination_by pieces.length + text.length

/-- Whether a text matches a pattern of GLOB. A pattern with a set that does not end matches
nothing. -/
def glob (pattern text : List Char) : Bool :=
  match globPieces pattern.length pattern with
  | some pieces => globMatches pieces text
  | none => false

end TreeQuery.Database
