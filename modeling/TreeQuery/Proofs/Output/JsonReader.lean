import Mathlib.Algebra.Field.Rat
import TreeQuery.Output.Json
import TreeQuery.Proofs.Query.TokenForms

/-!
# Reading JSON

A reader of JSON texts, all of RFC 8259: white space, every escape, pairs of codes for characters
beyond 16 bits, numbers with fractions and exponents, which are read exactly. `tokens` cuts a text
into tokens, `step` is a pushdown automaton over them with a frame for every array and object that
is open, and `read?` gives the value of a text if the automaton is done at its end.

To see what a longer text is read as, one only has to know this of its parts, wherever they stand:
`WrittenAs cs j`. The lemmas below put arrays together (`WrittenAs.array`) from what is written as
their items.
-/

namespace TreeQuery

/-- A JSON value. -/
inductive Json where
  | null
  | bool (b : Bool)
  | number (x : ℚ)
  | string (s : String)
  | array (items : List Json)
  | object (members : List (String × Json))

namespace Json

/-! ## Texts -/

/-- A character of a text, or a code of 16 bits. -/
inductive Piece where
  | char (c : Char)
  | code (n : Nat)

def hexValue? (c : Char) : Option Nat :=
  if c.isDigit then some (c.toNat - '0'.toNat)
  else if 'a' ≤ c ∧ c ≤ 'f' then some (c.toNat - 'a'.toNat + 10)
  else if 'A' ≤ c ∧ c ≤ 'F' then some (c.toNat - 'A'.toNat + 10)
  else none

/-- The code that hexadecimal digits write. -/
def code? (digits : List Char) : Option Nat :=
  digits.foldlM (fun n c => (hexValue? c).map (16 * n + ·)) 0

/-- The character that a letter behind a backslash stands for. -/
def escape? : Char → Option Char
  | '"' => some '"'
  | '\\' => some '\\'
  | '/' => some '/'
  | 'b' => some '\x08'
  | 'f' => some '\x0c'
  | 'n' => some '\n'
  | 'r' => some '\r'
  | 't' => some '\t'
  | _ => none

/-- The piece that starts with `c`, and how many of the characters after `c` belong to it. -/
def Piece.scan (c : Char) (cs : List Char) : Option (Piece × Nat) :=
  if c = '\\' then
    match cs with
    | 'u' :: h₁ :: h₂ :: h₃ :: h₄ :: _ =>
      (code? [h₁, h₂, h₃, h₄]).map fun n => (.code n, 5)
    | e :: _ => (escape? e).map fun d => (.char d, 1)
    | [] => none
  else if c.toNat < 0x20 then none
  else some (.char c, 0)

/-- The pieces up to a closing quote, and how many characters they take with it. -/
def pieces? : List Char → Option (List Piece × Nat)
  | [] => none
  | c :: cs =>
    if c = '"' then some ([], 1)
    else
      match Piece.scan c cs with
      | none => none
      | some (p, n) =>
        (pieces? (cs.drop n)).map fun (ps, length) => (p :: ps, n + 1 + length)
termination_by cs => cs.length
decreasing_by simp only [List.length_cons, List.length_drop]; omega

/-- Codes that stand for a character two by two. -/
def isHighHalf (n : Nat) : Bool := 0xD800 ≤ n && n < 0xDC00

def isLowHalf (n : Nat) : Bool := 0xDC00 ≤ n && n < 0xE000

/-- The characters of a text. A half without the other one stands for none. -/
def chars? : List Piece → Option (List Char)
  | [] => some []
  | .char c :: ps => (chars? ps).map (c :: ·)
  | .code n :: ps =>
    if isHighHalf n then
      match ps with
      | .code m :: ps =>
        if isLowHalf m then
          (chars? ps).map (Char.ofNat (0x10000 + (n - 0xD800) * 0x400 + (m - 0xDC00)) :: ·)
        else none
      | _ => none
    else if isLowHalf n then none
    else (chars? ps).map (Char.ofNat n :: ·)

/-! ## Numbers -/

/-- The digits before the point: at least one, and no zero in front of others. -/
def whole? (cs : List Char) : Option (List Char × List Char) :=
  let digits := cs.takeWhile Char.isDigit
  if digits = [] ∨ (digits.head? = some '0' ∧ digits ≠ ['0']) then none
  else some (digits, cs.drop digits.length)

/-- The digits after the point, if there is one. -/
def fraction? : List Char → Option (List Char × List Char)
  | '.' :: cs =>
    let digits := cs.takeWhile Char.isDigit
    if digits = [] then none else some (digits, cs.drop digits.length)
  | cs => some ([], cs)

/-- The sign in front of some digits, as a factor. -/
def sign : List Char → Int × List Char
  | '-' :: cs => (-1, cs)
  | '+' :: cs => (1, cs)
  | cs => (1, cs)

/-- The exponent, if there is one. -/
def exponent? : List Char → Option (Int × List Char)
  | [] => some (0, [])
  | e :: cs =>
    if e = 'e' ∨ e = 'E' then
      let (factor, cs) := sign cs
      let digits := cs.takeWhile Char.isDigit
      if digits = [] then none
      else some (factor * Nat.ofDigitChars 10 digits 0, cs.drop digits.length)
    else some (0, e :: cs)

/-- The number that characters write. -/
def number? (cs : List Char) : Option ℚ := do
  let (isNegative, cs) := if cs.head? = some '-' then (true, cs.tail) else (false, cs)
  let (whole, cs) ← whole? cs
  let (fraction, cs) ← fraction? cs
  let (exponent, cs) ← exponent? cs
  if cs ≠ [] then none
  let x : ℚ := Nat.ofDigitChars 10 (whole ++ fraction) 0 * 10 ^ (exponent - fraction.length)
  return if isNegative then -x else x

/-! ## Tokens -/

/-- What the structure of a text can be told from. -/
inductive Token where
  | openBracket
  | closeBracket
  | openBrace
  | closeBrace
  | comma
  | colon
  | string (s : String)
  /-- A number, or one of the three names. -/
  | plain (j : Json)

def Token.ofChar? : Char → Option Token
  | '[' => some .openBracket
  | ']' => some .closeBracket
  | '\x7b' => some .openBrace
  | '\x7d' => some .closeBrace
  | ',' => some .comma
  | ':' => some .colon
  | _ => none

/-- Where numbers and names do not end. -/
def isPlain (c : Char) : Bool := c.isAlphanum || c == '.' || c == '+' || c == '-'

def plain? (word : List Char) : Option Json :=
  if word = "null".toList then some .null
  else if word = "true".toList then some (.bool true)
  else if word = "false".toList then some (.bool false)
  else (number? word).map .number

/-- The token that starts with `c`, and how many of the characters after `c` belong to it. -/
def Token.scan (c : Char) (cs : List Char) : Option (Token × Nat) :=
  match Token.ofChar? c with
  | some t => some (t, 0)
  | none =>
    if c = '"' then do
      let (ps, length) ← pieces? cs
      let text ← chars? ps
      return (.string (String.ofList text), length)
    else do
      let word := cs.takeWhile isPlain
      let j ← plain? (c :: word)
      return (.plain j, word.length)

def isSpace (c : Char) : Bool := c == ' ' || c == '\t' || c == '\n' || c == '\r'

/-- The tokens of a text. -/
def tokens : List Char → Option (List Token)
  | [] => some []
  | c :: cs =>
    if isSpace c then tokens cs
    else
      match Token.scan c cs with
      | none => none
      | some (t, n) => (tokens (cs.drop n)).map (t :: ·)
termination_by cs => cs.length
decreasing_by
  · simp
  · simp only [List.length_cons, List.length_drop]; omega

/-! ## Structure -/

/-- An array with its items so far, or an object with its members and the key of the next. -/
inductive Frame where
  | array (items : List Json)
  | object (members : List (String × Json)) (key : String)

/-- What the next token is read as. -/
inductive Stage where
  | value
  /-- An array has been opened. -/
  | item
  /-- An object has been opened. -/
  | member
  | key (members : List (String × Json))
  | colon (members : List (String × Json)) (key : String)
  | done (j : Json)

/-- A value starts. -/
def start? (frames : List Frame) : Token → Option (Stage × List Frame)
  | .plain j => some (.done j, frames)
  | .string s => some (.done (.string s), frames)
  | .openBracket => some (.item, .array [] :: frames)
  | .openBrace => some (.member, frames)
  | _ => none

def step : Stage → List Frame → Token → Option (Stage × List Frame)
  | .value, frames, t => start? frames t
  | .item, .array items :: frames, .closeBracket => some (.done (.array items), frames)
  | .item, frames, t => start? frames t
  | .member, frames, .closeBrace => some (.done (.object []), frames)
  | .member, frames, .string key => some (.colon [] key, frames)
  | .key members, frames, .string key => some (.colon members key, frames)
  | .colon members key, frames, .colon => some (.value, .object members key :: frames)
  | .done j, .array items :: frames, .comma => some (.value, .array (items ++ [j]) :: frames)
  | .done j, .array items :: frames, .closeBracket =>
    some (.done (.array (items ++ [j])), frames)
  | .done j, .object members key :: frames, .comma =>
    some (.key (members ++ [(key, j)]), frames)
  | .done j, .object members key :: frames, .closeBrace =>
    some (.done (.object (members ++ [(key, j)])), frames)
  | _, _, _ => none

def run : Stage → List Frame → List Token → Option Json
  | .done j, [], [] => some j
  | _, _, [] => none
  | stage, frames, t :: ts =>
    match step stage frames t with
    | none => none
    | some (stage, frames) => run stage frames ts

/-- What is read of the rest of a text. -/
def readFrom (stage : Stage) (frames : List Frame) (cs : List Char) : Option Json :=
  (tokens cs).bind (run stage frames)

/-- **The value of a JSON text**, none for other texts. -/
def read? (text : String) : Option Json := readFrom .value [] text.toList

/-- White space, both kinds of escapes, a pair of codes, and numbers of all parts. -/
example : read? " \x7b \"a\\u0041\\n\" : [ -12.50e+1,true , \"\\uD83D\\uDE00\" ] \n\x7d" =
    some (.object [("aA\n", .array [.number (-125), .bool true, .string "😀"])]) := by
  cbv

/-! ## Parts of a text -/

section

variable {stage stage' : Stage} {frames frames' : List Frame} {c : Char} {cs rest : List Char}
  {t : Token} {n : Nat} {j : Json}

theorem isSpace_iff : isSpace c ↔ c = ' ' ∨ c = '\t' ∨ c = '\n' ∨ c = '\r' := by
  simp [isSpace, or_assoc]

theorem readFrom_scan (hspace : ¬ isSpace c) (hscan : Token.scan c cs = some (t, n))
    (hstep : step stage frames t = some (stage', frames')) :
    readFrom stage frames (c :: cs) = readFrom stage' frames' (cs.drop n) := by
  rw [readFrom, tokens, if_neg hspace, hscan]
  simp only [Option.bind_map]
  refine congrArg _ (funext fun ts => ?_)
  cases stage <;> simp only [Function.comp_apply, run, hstep]

/-- The tokens of one character. -/
theorem readFrom_ofChar (ht : Token.ofChar? c = some t)
    (hstep : step stage frames t = some (stage', frames')) :
    readFrom stage frames (c :: cs) = readFrom stage' frames' cs := by
  have hspace : ¬ isSpace c := by
    intro hspace
    rcases isSpace_iff.mp hspace with rfl | rfl | rfl | rfl <;> cases ht
  have hscan : Token.scan c cs = some (t, 0) := by rw [Token.scan, ht]
  rw [readFrom_scan hspace hscan hstep, List.drop_zero]

/-- The end of a text. -/
theorem readFrom_nil : readFrom (.done j) [] [] = some j := by
  rw [readFrom, tokens]
  rfl

/-- What may follow a number or a name. -/
def Ends (rest : List Char) : Prop :=
  ∀ d ∈ rest.head?, ¬ isPlain d

/-- **How a value is written**, wherever it stands: it is read as a whole, also as the first item
of an array. -/
structure WrittenAs (cs : List Char) (j : Json) : Prop where
  value : ∀ frames rest, Ends rest →
    readFrom .value frames (cs ++ rest) = readFrom (.done j) frames rest
  item : ∀ frames rest, Ends rest →
    readFrom .item (.array [] :: frames) (cs ++ rest) =
      readFrom (.done j) (.array [] :: frames) rest

/-- A token that is a value. -/
theorem WrittenAs.of_scan (hspace : ¬ isSpace c)
    (hscan : ∀ rest, Ends rest → Token.scan c (cs ++ rest) = some (t, cs.length))
    (ht : ∀ frames, start? frames t = some (.done j, frames)) : WrittenAs (c :: cs) j := by
  have hitem : ∀ frames, step .item (.array [] :: frames) t = start? (.array [] :: frames) t := by
    intro frames
    cases t <;> first | rfl | cases ht []
  have hvalue : ∀ frames, step .value frames t = some (.done j, frames) := ht
  refine ⟨fun frames rest hrest => ?_, fun frames rest hrest => ?_⟩
  · rw [List.cons_append, readFrom_scan hspace (hscan rest hrest) (hvalue frames),
      List.drop_left]
  · rw [List.cons_append, readFrom_scan hspace (hscan rest hrest) ((hitem frames).trans (ht _)),
      List.drop_left]

theorem WrittenAs.plain (hword : ∀ d ∈ c :: cs, isPlain d) (hj : plain? (c :: cs) = some j) :
    WrittenAs (c :: cs) j := by
  obtain ⟨hc, hcs⟩ := List.forall_mem_cons.mp hword
  have hspace : ¬ isSpace c := by
    intro hspace
    rcases isSpace_iff.mp hspace with rfl | rfl | rfl | rfl <;> cases hc
  have hofChar : Token.ofChar? c = none := by
    unfold Token.ofChar?
    split <;> first | rfl | cases hc
  have hquote : c ≠ '"' := by
    rintro rfl
    cases hc
  refine .of_scan (t := .plain j) hspace (fun rest hrest => ?_) fun _ => rfl
  rw [Token.scan, hofChar]
  simp only [if_neg hquote, Query.takeWhile_append_stop hcs hrest, hj, Option.bind_eq_bind,
    Option.bind_some, Option.pure_def]

/-- Pieces up to the closing quote that are those of a text. -/
def Quotes (cs : List Char) (s : String) : Prop :=
  ∀ rest, ∃ ps, pieces? (cs ++ rest) = some (ps, cs.length) ∧ chars? ps = some s.toList

theorem Quotes.scan {s : String} (h : Quotes cs s) (rest : List Char) :
    Token.scan '"' (cs ++ rest) = some (.string s, cs.length) := by
  obtain ⟨ps, hpieces, hchars⟩ := h rest
  have hofChar : Token.ofChar? '"' = none := rfl
  rw [Token.scan, hofChar]
  simp only [if_true, hpieces, hchars, Option.bind_eq_bind, Option.bind_some, Option.pure_def,
    String.ofList_toList]

theorem Quotes.writtenAs {s : String} (h : Quotes cs s) : WrittenAs ('"' :: cs) (.string s) :=
  .of_scan (by decide) (fun rest _ => h.scan rest) fun _ => rfl

/-- A text in any place, also as a key. -/
theorem Quotes.readFrom_eq {s : String} (h : Quotes cs s)
    (hstep : step stage frames (.string s) = some (stage', frames')) :
    readFrom stage frames ('"' :: (cs ++ rest)) = readFrom stage' frames' rest := by
  rw [readFrom_scan (by decide) (h.scan rest) hstep, List.drop_left]

/-! ## Arrays -/

/-- Items with commas between them: the first, and a comma before every other. -/
theorem flatten_intersperse_comma (cs : List Char) (items : List (List Char)) :
    ((cs :: items).intersperse [',']).flatten = cs ++ items.flatMap (',' :: ·) := by
  induction items generalizing cs with
  | nil => simp
  | cons ds items ih => simp [List.intersperse_cons_cons, ih]

theorem ends_items (items : List (List Char)) (rest : List Char) :
    Ends (items.flatMap (',' :: ·) ++ ']' :: rest) := by
  cases items <;> simp [Ends, isPlain]

/-- The items after the first. -/
theorem readFrom_items {items : List (List Char)} {js acc : List Json}
    (h : List.Forall₂ WrittenAs items js) :
    readFrom (.done j) (.array acc :: frames) (items.flatMap (',' :: ·) ++ ']' :: rest) =
      readFrom (.done (.array (acc ++ j :: js))) frames rest := by
  induction h generalizing acc j with
  | nil => exact readFrom_ofChar rfl rfl
  | @cons cs j' items js hcs _ ih =>
    rw [List.flatMap_cons, List.cons_append, List.cons_append, List.append_assoc,
      readFrom_ofChar (t := .comma) rfl rfl, hcs.value _ _ (ends_items items rest), ih,
      List.append_assoc]
    rfl

/-- **Items in brackets** are an array. -/
theorem WrittenAs.array {items : List (List Char)} {js : List Json}
    (h : List.Forall₂ WrittenAs items js) : WrittenAs (Output.jsonArray items) (.array js) := by
  have hinside : ∀ frames rest, readFrom .item (.array [] :: frames)
      ((items.intersperse [',']).flatten ++ ']' :: rest) =
        readFrom (.done (.array js)) frames rest := by
    intro frames rest
    cases h with
    | nil => exact readFrom_ofChar rfl rfl
    | @cons cs j items js hcs hitems =>
      rw [flatten_intersperse_comma, List.append_assoc, hcs.item _ _ (ends_items items rest),
        readFrom_items hitems]
      rfl
  refine ⟨fun frames rest _ => ?_, fun frames rest _ => ?_⟩ <;>
    rw [Output.jsonArray, List.cons_append, List.append_assoc,
      readFrom_ofChar (t := .openBracket) rfl rfl] <;> exact hinside _ _

end

end Json

end TreeQuery
