/-!
# Reading bytes as text

File names and stored texts are bytes that are meant to be UTF-8. `decode?` reads them as
characters; `decodeLossy` reads any bytes, with one replacement character for every longest front
of a character that breaks off.

`decodeLossy` stands for `from_utf8_lossy` and `to_string_lossy`.
-/

namespace TreeQuery.Text

/-- The character that stands for bytes that are none. -/
def replacement : Char := '\uFFFD'

/-- A byte that continues a character. -/
def isTail (b : UInt8) : Bool := 0x80 ≤ b && b ≤ 0xBF

/-- The second bytes that may follow the first byte of a character of three bytes. -/
def isSecondOfThree (first second : UInt8) : Bool :=
  if first == 0xE0 then 0xA0 ≤ second && second ≤ 0xBF
  else if first == 0xED then 0x80 ≤ second && second ≤ 0x9F
  else isTail second

/-- The second bytes that may follow the first byte of a character of four bytes. -/
def isSecondOfFour (first second : UInt8) : Bool :=
  if first == 0xF0 then 0x90 ≤ second && second ≤ 0xBF
  else if first == 0xF4 then 0x80 ≤ second && second ≤ 0x8F
  else isTail second

/-- The low bits of a byte that continues a character. -/
def tailBits (b : UInt8) : Nat := b.toNat % 64

/-- The front of some bytes: a character, or none if it breaks off, and how many bytes after the
first belong to it. -/
structure Front where
  char? : Option Char
  more : Nat

/-- The front of the bytes that start with `b`. -/
def front (b : UInt8) (rest : List UInt8) : Front :=
  if b < 0x80 then ⟨some (Char.ofNat b.toNat), 0⟩
  else if 0xC2 ≤ b ∧ b ≤ 0xDF then
    match rest with
    | c :: _ =>
      if isTail c then ⟨some (Char.ofNat (b.toNat % 32 * 64 + tailBits c)), 1⟩ else ⟨none, 0⟩
    | [] => ⟨none, 0⟩
  else if 0xE0 ≤ b ∧ b ≤ 0xEF then
    match rest with
    | c :: rest =>
      if isSecondOfThree b c then
        match rest with
        | d :: _ =>
          if isTail d then
            ⟨some (Char.ofNat ((b.toNat % 16 * 64 + tailBits c) * 64 + tailBits d)), 2⟩
          else ⟨none, 1⟩
        | [] => ⟨none, 1⟩
      else ⟨none, 0⟩
    | [] => ⟨none, 0⟩
  else if 0xF0 ≤ b ∧ b ≤ 0xF4 then
    match rest with
    | c :: rest =>
      if isSecondOfFour b c then
        match rest with
        | d :: rest =>
          if isTail d then
            match rest with
            | e :: _ =>
              if isTail e then
                let high := (b.toNat % 8 * 64 + tailBits c) * 64 + tailBits d
                ⟨some (Char.ofNat (high * 64 + tailBits e)), 3⟩
              else ⟨none, 2⟩
            | [] => ⟨none, 2⟩
          else ⟨none, 1⟩
        | [] => ⟨none, 1⟩
      else ⟨none, 0⟩
    | [] => ⟨none, 0⟩
  else ⟨none, 0⟩

/-- The fronts of some bytes, one after the other. -/
def fronts : List UInt8 → List (Option Char)
  | [] => []
  | b :: rest => (front b rest).char? :: fronts (rest.drop (front b rest).more)
termination_by bytes => bytes.length
decreasing_by simp only [List.length_cons, List.length_drop]; omega

/-- The text of some bytes, if they are UTF-8. -/
def decode? (bytes : List UInt8) : Option String :=
  ((fronts bytes).mapM id).map String.ofList

/-- The text of some bytes, with a replacement character wherever they are no UTF-8. -/
def decodeLossy (bytes : List UInt8) : String :=
  String.ofList ((fronts bytes).map fun c => c.getD replacement)

/-- The UTF-8 bytes of a text. -/
def encode (text : String) : List UInt8 :=
  text.toUTF8.toList

end TreeQuery.Text
