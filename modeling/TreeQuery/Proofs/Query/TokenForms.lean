import Mathlib.Data.Char
import TreeQuery.Query.Scan
import TreeQuery.Text.Quoted

/-!
# The written forms of tokens

`Token.Written t text` says that `text` is a written form of the token `t`, without a word on how
texts are scanned: a keyword in any case of its letters, a name, one of the number forms, a text
between two quotes, a symbol, or the word FROM with white space and a target.

`t.mayPrecede text d` says that the character `d`, right after the text of `t`, leaves that text
as it is. What stands farther on never matters.

For each kind of form there is a pair of facts about the function that measures it: what it
measures in front of a text is of the form (`exists_number`, `exists_quoted`, `exists_target`,
`Symbol.exists_scan`), and a text of the form is measured to its end before everything that it may
precede (`numberLength_append`, `quotedLength_append`, `scan_target`, `Symbol.scan_spelling`).
`Scanning` puts them together.
-/

namespace TreeQuery.Query

/-! ## Forms -/

namespace Form

/-- One or more digits. -/
def Digits (ds : List Char) : Prop :=
  ds ≠ [] ∧ ∀ d ∈ ds, d.isDigit

/-- An exponent, or nothing. -/
inductive Exponent : List Char → Prop where
  | none : Exponent []
  | some {e sign ds} : e = 'e' ∨ e = 'E' → sign = [] ∨ sign = ['+'] ∨ sign = ['-'] →
      Digits ds → Exponent (e :: (sign ++ ds))

/-- A point and any number of digits, or nothing. -/
inductive Fraction : List Char → Prop where
  | none : Fraction []
  | some {ds} : (∀ d ∈ ds, d.isDigit) → Fraction ('.' :: ds)

inductive Number : List Char → Prop where
  | decimal {d ds fs es} : d.isDigit → (∀ d ∈ ds, d.isDigit) → Fraction fs → Exponent es →
      Number (d :: (ds ++ (fs ++ es)))
  | point {fs es} : Digits fs → Exponent es → Number ('.' :: (fs ++ es))
  | hexadecimal {x ds} : x = 'x' ∨ x = 'X' → ds ≠ [] → (∀ d ∈ ds, isHexDigit d) →
      Number ('0' :: x :: ds)

/-- What follows an opening quote `q`, up to the closing quote and with it. -/
inductive Quoted (q : Char) : List Char → Prop where
  | close : Quoted q [q]
  | char {c cs} : c ≠ q → Quoted q cs → Quoted q (c :: cs)
  | doubled {cs} : Quoted q cs → Quoted q (q :: q :: cs)

/-- What follows the opening quote `q` of a target, and the path that it spells. -/
inductive QuotedTarget (q : Char) : List Char → List Char → Prop where
  | close : QuotedTarget q [] [q]
  | escaped {c p cs} : QuotedTarget q p cs → QuotedTarget q (c :: p) ('\\' :: c :: cs)
  | doubled {p cs} : QuotedTarget q p cs → QuotedTarget q (q :: p) (q :: q :: cs)
  | char {c p cs} : c ≠ q → c ≠ '\\' → QuotedTarget q p cs → QuotedTarget q (c :: p) (c :: cs)

/-- A target and the path that it spells. -/
inductive Target : List Char → List Char → Prop where
  | quoted {q p cs} : q = '"' ∨ q = '\'' → QuotedTarget q p cs → Target p (q :: cs)
  | bare {c cs} : ¬ c.isDigit → (∀ d ∈ c :: cs, ¬ Target.endsBare d) → Target (c :: cs) (c :: cs)

/-- The letters of the word FROM, in any case. -/
def From (w : List Char) : Prop :=
  w.map Char.toLower = "from".toList

instance (w : List Char) : Decidable (From w) :=
  inferInstanceAs (Decidable (w.map Char.toLower = "from".toList))

end Form

/-- **The written forms** of a token. -/
inductive Token.Written : Token → List Char → Prop where
  | keyword {k : Keyword} {w} : w.map Char.toLower = k.word.toList → Written (.keyword k) w
  | ident {c cs} : isNameStart c → (∀ d ∈ cs, isNameChar d) → ¬ Form.From (c :: cs) →
      Keyword.ofWord? (c :: cs) = none → Written .ident (c :: cs)
  | number {w} : Form.Number w → Written .number w
  | doubleQuoted {cs} : Form.Quoted '"' cs → Written .doubleQuoted ('"' :: cs)
  | singleQuoted {cs} : Form.Quoted '\'' cs → Written .singleQuoted ('\'' :: cs)
  | symbol (s : Symbol) : Written (.symbol s) s.spelling.toList
  | source {w space path target} : Form.From w → (∀ d ∈ space, Text.isBlank d) →
      Form.Target path target → (space = [] → ∀ d ∈ target.head?, ¬ isNameChar d) →
      Written (.source (String.ofList path)) (w ++ (space ++ target))

/-- Whether a character ends the target that a text ends with: after a quote, any other character
does. -/
def endsTarget (text : List Char) (d : Char) : Bool :=
  match text.getLast? with
  | some q => if q == '"' || q == '\'' then d != q else Target.endsBare d
  | none => true

/-- Whether a character leaves the text of a token as it is when it comes right after it. -/
def Token.mayPrecede : Token → List Char → Char → Bool
  | .keyword _, _, d | .ident, _, d => !isNameChar d
  | .number, _, d => !isNameChar d && d != '.'
  | .doubleQuoted, _, d => d != '"'
  | .singleQuoted, _, d => d != '\''
  | .symbol .dot, _, d => !d.isDigit
  | .symbol _, [c], d => (Symbol.ofPair? c d).isNone
  | .symbol _, _, _ => true
  | .source _, text, d => endsTarget text d

/-! ## Characters of names -/

/-- Capitals, by their numbers. -/
theorem isUpper_iff_toNat {c : Char} : c.isUpper ↔ 65 ≤ c.toNat ∧ c.toNat ≤ 90 :=
  decide_eq_true_iff

/-- Small letters, by their numbers. -/
theorem isLower_iff_toNat {c : Char} : c.isLower ↔ 97 ≤ c.toNat ∧ c.toNat ≤ 122 :=
  (Bool.and_eq_true_iff).trans (and_congr decide_eq_true_iff decide_eq_true_iff)

theorem isAlpha_iff {c : Char} : c.isAlpha ↔ c.isUpper ∨ c.isLower :=
  Bool.or_eq_true_iff

theorem isNameStart_of_isAlpha {c : Char} (h : c.isAlpha) : isNameStart c := by
  simp [isNameStart, h]

theorem isNameStart_of_isUpper {c : Char} (h : c.isUpper) : isNameStart c :=
  isNameStart_of_isAlpha (isAlpha_iff.mpr (.inl h))

theorem isNameChar_of_isNameStart {c : Char} (h : isNameStart c) : isNameChar c := by
  rcases Bool.or_eq_true_iff.mp h with h | h
  · simp [isNameChar, Char.isAlphanum, h]
  · simp [isNameChar, h]

/-- What is no capital letter is its own lower case. -/
theorem toLower_of_not_isUpper {c : Char} (h : ¬ c.isUpper) : c.toLower = c :=
  dif_neg fun hc => h (decide_eq_true hc)

/-- The case of a letter does not matter for the start of a name. -/
theorem isNameStart_of_toLower {c : Char} (h : isNameStart c.toLower) : isNameStart c := by
  by_cases hc : c.isUpper
  · exact isNameStart_of_isUpper hc
  · rwa [toLower_of_not_isUpper hc] at h

theorem isNameChar_of_toLower {c : Char} (h : isNameChar c.toLower) : isNameChar c := by
  by_cases hc : c.isUpper
  · exact isNameChar_of_isNameStart (isNameStart_of_isUpper hc)
  · rwa [toLower_of_not_isUpper hc] at h

/-- A word whose lower-case form can be a name can be one itself. -/
theorem isName_of_map_toLower {w v : List Char} (h : w.map Char.toLower = v)
    (hv : ∃ c cs, v = c :: cs ∧ isNameStart c ∧ ∀ d ∈ cs, isNameChar d) :
    ∃ c cs, w = c :: cs ∧ isNameStart c ∧ ∀ d ∈ cs, isNameChar d := by
  obtain ⟨c', cs', rfl, hc', hcs'⟩ := hv
  obtain ⟨c, cs, rfl, rfl, rfl⟩ := List.map_eq_cons_iff.mp h
  refine ⟨c, cs, rfl, isNameStart_of_toLower hc', fun d hd => isNameChar_of_toLower ?_⟩
  exact hcs' _ (List.mem_map_of_mem hd)

theorem not_isDigit_of_isNameStart {c : Char} (h : isNameStart c) : ¬ c.isDigit := by
  intro hd
  rw [Char.isDigit_iff_toNat] at hd
  rcases Bool.or_eq_true_iff.mp h with h | h
  · rw [isAlpha_iff, isUpper_iff_toNat, isLower_iff_toNat] at h
    simp only [Char.reduceToNat] at hd
    omega
  · obtain rfl := eq_of_beq h
    simp at hd

theorem not_isNameChar_of_isBlank {c : Char} (h : Text.isBlank c) : ¬ isNameChar c := by
  intro hc
  simp only [Text.isBlank, Bool.or_eq_true, Bool.and_eq_true, decide_eq_true_eq, beq_iff_eq] at h
  rcases Bool.or_eq_true_iff.mp hc with hc | hc
  · rw [Char.isAlphanum, Bool.or_eq_true, isAlpha_iff, isUpper_iff_toNat, isLower_iff_toNat,
      Char.isDigit_iff_toNat] at hc
    simp only [Char.reduceToNat] at hc
    omega
  · obtain rfl := eq_of_beq hc
    revert h
    decide

theorem isNameChar_of_isDigit {c : Char} (h : c.isDigit) : isNameChar c := by
  simp [isNameChar, Char.isAlphanum, h]

theorem isNameChar_of_isHexDigit {c : Char} (h : isHexDigit c) : isNameChar c := by
  simp only [isHexDigit, Bool.or_eq_true, Bool.and_eq_true, decide_eq_true_eq] at h
  rcases h with (h | ⟨h1, h2⟩) | ⟨h1, h2⟩
  · exact isNameChar_of_isDigit h
  · have hl : c.isLower := isLower_iff_toNat.mpr ⟨h1, Nat.le_trans h2 (by decide)⟩
    exact isNameChar_of_isNameStart (isNameStart_of_isAlpha (isAlpha_iff.mpr (.inr hl)))
  · have hu : c.isUpper := isUpper_iff_toNat.mpr ⟨h1, Nat.le_trans h2 (by decide)⟩
    exact isNameChar_of_isNameStart (isNameStart_of_isUpper hu)

/-! ## Words -/

namespace Keyword

theorem find?_word (k : Keyword) :
    list.find? (fun k' => k'.word.toList == k.word.toList) = some k := by
  cases k <;> decide +kernel

theorem word_isName (k : Keyword) :
    ∃ c cs, k.word.toList = c :: cs ∧ isNameStart c ∧ ∀ d ∈ cs, isNameChar d := by
  cases k <;> exact ⟨_, _, rfl, by decide, List.all_eq_true.mp rfl⟩

theorem word_ne_from (k : Keyword) : k.word.toList ≠ "from".toList := by
  cases k <;> decide

theorem ofWord?_eq_some_iff {w : List Char} {k : Keyword} :
    ofWord? w = some k ↔ w.map Char.toLower = k.word.toList := by
  rw [ofWord?]
  constructor
  · intro h
    have hword := List.find?_some h
    exact (beq_iff_eq.mp hword).symm
  · intro h
    rw [h]
    exact k.find?_word

end Keyword

namespace Form

theorem From.isName {w : List Char} (h : From w) :
    ∃ c cs, w = c :: cs ∧ isNameStart c ∧ ∀ d ∈ cs, isNameChar d :=
  isName_of_map_toLower h ⟨'f', ['r', 'o', 'm'], rfl, by decide, List.all_eq_true.mp rfl⟩

/-- A text whose quotes are doubled is a quoted text. -/
theorem Quoted.of_double (q : Char) (cs : List Char) : Quoted q (Text.double q cs ++ [q]) := by
  induction cs with
  | nil => exact .close
  | cons c cs ih =>
    rw [Text.double]
    split
    · exact .doubled ih
    · rename_i hc
      exact .char hc ih

theorem Digits.isNameChar {ds : List Char} (h : Digits ds) : ∀ d ∈ ds, isNameChar d :=
  fun d hd => isNameChar_of_isDigit (h.2 d hd)

end Form

/-- Characters that meet a condition, before one that does not, are all that is taken. -/
theorem takeWhile_append_stop {p : Char → Bool} {as rest : List Char} (has : ∀ a ∈ as, p a)
    (hrest : ∀ d ∈ rest.head?, ¬ p d) : (as ++ rest).takeWhile p = as := by
  rw [List.takeWhile_append_of_pos has]
  cases rest with
  | nil => simp
  | cons d rest => simp [List.takeWhile_cons_of_neg (hrest d rfl)]

theorem drop_length_append {n : Nat} {as rest : List Char} (h : as.length = n) :
    (as ++ rest).drop n = rest := by
  rw [← h, List.drop_left]

/-! ## Numbers -/

section Numbers

variable {ds es fs rest : List Char}

theorem digitsLength_append (hds : ∀ d ∈ ds, d.isDigit) (hrest : ∀ d ∈ rest.head?, ¬ d.isDigit) :
    digitsLength (ds ++ rest) = ds.length := by
  rw [digitsLength, takeWhile_append_stop hds hrest]

/-- What may follow a number: no character of a name and no point. -/
def EndsNumber (rest : List Char) : Prop :=
  ∀ d ∈ rest.head?, ¬ isNameChar d ∧ d ≠ '.'

theorem EndsNumber.not_isDigit (h : EndsNumber rest) : ∀ d ∈ rest.head?, ¬ d.isDigit :=
  fun d hd hdigit => (h d hd).1 (isNameChar_of_isDigit hdigit)

theorem exponentLength_append (hes : Form.Exponent es) (hrest : EndsNumber rest) :
    exponentLength (es ++ rest) = es.length := by
  cases hes with
  | none =>
    cases rest with
    | nil => rfl
    | cons d rest =>
      have hd : ¬ (d = 'e' ∨ d = 'E') := by
        rintro (rfl | rfl) <;> exact (hrest _ rfl).1 (by decide)
      simp [exponentLength, hd]
  | @some e sign ds he hsign hds =>
    have hlength : digitsLength (ds ++ rest) = ds.length :=
      digitsLength_append hds.2 hrest.not_isDigit
    obtain ⟨d, ds', rfl⟩ := List.exists_cons_of_ne_nil hds.1
    have hd : d ≠ '+' ∧ d ≠ '-' := by
      constructor <;> rintro rfl <;> exact absurd (hds.2 _ List.mem_cons_self) (by decide)
    rcases hsign with rfl | rfl | rfl
    · simp only [List.nil_append, List.cons_append] at hlength ⊢
      simp [exponentLength, he, hd, hlength]
      omega
    · simp only [List.cons_append, List.nil_append] at hlength ⊢
      simp [exponentLength, he, hlength]
      omega
    · simp only [List.cons_append, List.nil_append] at hlength ⊢
      simp [exponentLength, he, hlength]
      omega

theorem ne_digit_and_point_of_exponent (hes : Form.Exponent es) (hrest : EndsNumber rest) :
    ∀ d ∈ (es ++ rest).head?, ¬ d.isDigit ∧ d ≠ '.' := by
  intro d hd
  cases hes with
  | none => exact ⟨hrest.not_isDigit d hd, (hrest d hd).2⟩
  | some he =>
    obtain rfl := Option.some.inj hd
    rcases he with rfl | rfl <;> decide

theorem fractionLength_append (hfs : Form.Fraction fs) (hes : Form.Exponent es)
    (hrest : EndsNumber rest) : fractionLength (fs ++ (es ++ rest)) = fs.length := by
  have hhead := ne_digit_and_point_of_exponent hes hrest
  cases hfs with
  | none =>
    rw [List.nil_append]
    unfold fractionLength
    split
    · rename_i cs hcs
      exact absurd rfl (hhead '.' (by rw [hcs]; rfl)).2
    · rfl
  | some hds =>
    rw [List.cons_append, fractionLength, digitsLength_append hds fun d hd => (hhead d hd).1]
    simp
    omega

/-- The length of a decimal number after its first digit. -/
def decimalLength (cs : List Char) : Nat :=
  let whole := digitsLength cs
  let fraction := fractionLength (cs.drop whole)
  whole + fraction + exponentLength (cs.drop (whole + fraction))

theorem decimalLength_append (hds : ∀ d ∈ ds, d.isDigit) (hfs : Form.Fraction fs)
    (hes : Form.Exponent es) (hrest : EndsNumber rest) :
    decimalLength (ds ++ (fs ++ (es ++ rest))) = ds.length + fs.length + es.length := by
  have hhead : ∀ d ∈ (fs ++ (es ++ rest)).head?, ¬ d.isDigit := by
    intro d hd
    cases hfs with
    | none => exact (ne_digit_and_point_of_exponent hes hrest d hd).1
    | some =>
      obtain rfl := Option.some.inj hd
      decide
  have hdrop : (ds ++ (fs ++ (es ++ rest))).drop (ds.length + fs.length) = es ++ rest := by
    rw [← List.append_assoc]
    exact drop_length_append List.length_append
  rw [decimalLength, digitsLength_append hds hhead, List.drop_left,
    fractionLength_append hfs hes hrest, hdrop, exponentLength_append hes hrest]

/-- A number that does not go on with `x` is decimal. -/
theorem numberLength_eq_decimalLength {c : Char} {cs : List Char}
    (h : ∀ x ∈ cs.head?, ¬ (x = 'x' ∨ x = 'X')) : numberLength c cs = decimalLength cs := by
  unfold numberLength decimalLength
  simp only
  split
  · rename_i x ds
    rw [if_neg (h x rfl)]
  · rfl

theorem numberLength_cases (c : Char) (cs : List Char) :
    numberLength c cs = decimalLength cs ∨ ∃ x ds, c = '0' ∧ cs = x :: ds ∧
      (x = 'x' ∨ x = 'X') ∧ ds.takeWhile isHexDigit ≠ [] ∧
      numberLength c cs = 1 + (ds.takeWhile isHexDigit).length := by
  unfold numberLength decimalLength
  simp only
  split
  · rename_i x ds
    by_cases hx : x = 'x' ∨ x = 'X'
    · rw [if_pos hx]
      split
      · exact .inl rfl
      · rename_i n hn
        refine .inr ⟨x, ds, rfl, rfl, hx, ?_, rfl⟩
        rintro hnil
        exact hn (by rw [hnil]; rfl)
    · rw [if_neg hx]
      exact .inl rfl
  · exact .inl rfl

theorem ne_x_of_decimal (hds : ∀ d ∈ ds, d.isDigit) (hfs : Form.Fraction fs)
    (hes : Form.Exponent es) (hrest : EndsNumber rest) :
    ∀ x ∈ (ds ++ (fs ++ (es ++ rest))).head?, ¬ (x = 'x' ∨ x = 'X') := by
  rintro x hx (rfl | rfl) <;> cases ds with
  | cons d ds =>
    obtain rfl := Option.some.inj hx
    exact absurd (hds _ List.mem_cons_self) (by decide)
  | nil =>
    cases hfs with
    | some => exact absurd (Option.some.inj hx) (by decide)
    | none =>
      cases hes with
      | none => exact (hrest _ hx).1 (by decide)
      | some he =>
        obtain rfl := Option.some.inj hx
        exact absurd he (by decide)

/-- A number is read to its end before whatever may follow it. -/
theorem numberLength_append {c : Char} {cs : List Char} (h : Form.Number (c :: cs))
    (hc : c ≠ '.') (hrest : EndsNumber rest) : numberLength c (cs ++ rest) = cs.length := by
  cases h with
  | decimal hd hds hfs hes =>
    simp only [List.append_assoc]
    rw [numberLength_eq_decimalLength, decimalLength_append hds hfs hes hrest]
    · simp only [List.length_append]
      omega
    · exact ne_x_of_decimal hds hfs hes hrest
  | point => exact absurd rfl hc
  | @hexadecimal x ds hx hne hds =>
    have htake : (ds ++ rest).takeWhile isHexDigit = ds :=
      takeWhile_append_stop hds fun d hd hhex =>
        (hrest d hd).1 (isNameChar_of_isHexDigit hhex)
    obtain ⟨d, ds', rfl⟩ := List.exists_cons_of_ne_nil hne
    rw [List.cons_append, numberLength]
    simp only [if_pos hx, htake]
    simp
    omega

/-! ### What is read as a number -/

theorem exists_digits (cs : List Char) : ∃ ds rest, cs = ds ++ rest ∧
    (∀ d ∈ ds, d.isDigit) ∧ digitsLength cs = ds.length :=
  ⟨cs.takeWhile Char.isDigit, cs.dropWhile Char.isDigit, List.takeWhile_append_dropWhile.symm,
    List.all_eq_true.mp List.all_takeWhile, rfl⟩

theorem exists_fraction (cs : List Char) : ∃ fs rest, cs = fs ++ rest ∧ Form.Fraction fs ∧
    fractionLength cs = fs.length := by
  unfold fractionLength
  split
  · rename_i cs
    obtain ⟨ds, rest, rfl, hds, hlength⟩ := exists_digits cs
    refine ⟨'.' :: ds, rest, rfl, .some hds, ?_⟩
    rw [hlength, List.length_cons, Nat.add_comm]
  · exact ⟨[], cs, rfl, .none, rfl⟩

/-- The length of a sign in front. -/
def signLength : List Char → Nat
  | c :: _ => if c = '+' ∨ c = '-' then 1 else 0
  | [] => 0

theorem exists_sign (cs : List Char) : ∃ sign rest, cs = sign ++ rest ∧
    (sign = [] ∨ sign = ['+'] ∨ sign = ['-']) ∧ signLength cs = sign.length := by
  cases cs with
  | nil => exact ⟨[], [], rfl, .inl rfl, rfl⟩
  | cons c cs =>
    by_cases hc : c = '+' ∨ c = '-'
    · refine ⟨[c], cs, rfl, ?_, if_pos hc⟩
      rcases hc with rfl | rfl
      · exact .inr (.inl rfl)
      · exact .inr (.inr rfl)
    · exact ⟨[], c :: cs, rfl, .inl rfl, if_neg hc⟩

theorem exponentLength_cons {e : Char} (he : e = 'e' ∨ e = 'E') (cs : List Char) :
    exponentLength (e :: cs) =
      if digitsLength (cs.drop (signLength cs)) = 0 then 0
      else 1 + signLength cs + digitsLength (cs.drop (signLength cs)) := by
  refine (if_pos he).trans ?_
  cases cs with
  | nil => rfl
  | cons c cs =>
    simp only [signLength]
    split
    · rename_i hn
      exact (if_pos hn).symm
    · rename_i hn
      exact (if_neg hn).symm

theorem exists_exponent (cs : List Char) : ∃ es rest, cs = es ++ rest ∧ Form.Exponent es ∧
    exponentLength cs = es.length := by
  cases cs with
  | nil => exact ⟨[], [], rfl, .none, rfl⟩
  | cons e cs =>
    by_cases he : e = 'e' ∨ e = 'E'
    · obtain ⟨sign, rest, hcs, hsign, hsigned⟩ := exists_sign cs
      obtain ⟨ds, rest, rfl, hds, hlength⟩ := exists_digits rest
      have hdrop : cs.drop sign.length = ds ++ rest := by rw [hcs, List.drop_left]
      rw [exponentLength_cons he, hsigned, hdrop, hlength]
      by_cases hn : ds.length = 0
      · exact ⟨[], e :: cs, rfl, .none, if_pos hn⟩
      · refine ⟨e :: (sign ++ ds), rest, by rw [hcs]; simp, .some he hsign ⟨?_, hds⟩, ?_⟩
        · rintro rfl
          exact hn rfl
        · rw [if_neg hn, List.length_cons, List.length_append]
          omega
    · exact ⟨[], e :: cs, rfl, .none, by simp [exponentLength, he]⟩

theorem exists_decimal (cs : List Char) : ∃ ds fs es rest, cs = ds ++ (fs ++ (es ++ rest)) ∧
    (∀ d ∈ ds, d.isDigit) ∧ Form.Fraction fs ∧ Form.Exponent es ∧
    decimalLength cs = ds.length + fs.length + es.length := by
  obtain ⟨ds, cs1, hcs, hds, hwhole⟩ := exists_digits cs
  obtain ⟨fs, cs2, hcs1, hfs, hfraction⟩ := exists_fraction cs1
  obtain ⟨es, rest, hcs2, hes, hexponent⟩ := exists_exponent cs2
  refine ⟨ds, fs, es, rest, by rw [hcs, hcs1, hcs2], hds, hfs, hes, ?_⟩
  have hdrop1 : cs.drop ds.length = cs1 := by rw [hcs, List.drop_left]
  have hdrop2 : cs.drop (ds.length + fs.length) = cs2 := by
    rw [← List.drop_drop, hdrop1, hcs1, List.drop_left]
  rw [decimalLength, hwhole, hdrop1, hfraction, hdrop2, hexponent]

theorem exists_number {c : Char} (hc : c.isDigit) (cs : List Char) :
    ∃ tail rest, cs = tail ++ rest ∧ Form.Number (c :: tail) ∧
      numberLength c cs = tail.length := by
  rcases numberLength_cases c cs with h | ⟨x, ds, rfl, rfl, hx, hne, h⟩
  · obtain ⟨ds, fs, es, rest, hcs, hds, hfs, hes, hlength⟩ := exists_decimal cs
    refine ⟨ds ++ (fs ++ es), rest, by rw [hcs]; simp, .decimal hc hds hfs hes, ?_⟩
    rw [h, hlength]
    simp
    omega
  · refine ⟨x :: ds.takeWhile isHexDigit, ds.dropWhile isHexDigit,
      by rw [List.cons_append, List.takeWhile_append_dropWhile],
      .hexadecimal hx hne (List.all_eq_true.mp List.all_takeWhile), ?_⟩
    rw [h, List.length_cons, Nat.add_comm]

end Numbers

/-! ## Quoted texts -/

section Quoted

variable {q : Char} {cs rest : List Char}

theorem quotedLength_append (h : Form.Quoted q cs) (hrest : ∀ d ∈ rest.head?, d ≠ q) :
    quotedLength q (cs ++ rest) = some cs.length := by
  induction h with
  | close =>
    cases rest with
    | nil => simp [quotedLength]
    | cons d rest => simp [quotedLength, hrest d rfl]
  | @char c cs hc hcs ih =>
    obtain ⟨d, cs', rfl⟩ : ∃ d cs', cs = d :: cs' := by
      cases hcs <;> exact ⟨_, _, rfl⟩
    rw [List.cons_append] at ih ⊢
    simp [quotedLength, hc, ih]
  | doubled _ ih =>
    simp [quotedLength, ih]

theorem exists_quoted : ∀ {cs : List Char} {n : Nat}, quotedLength q cs = some n →
    ∃ tail rest, cs = tail ++ rest ∧ Form.Quoted q tail ∧ n = tail.length
  | [c], n, h => by
    rw [quotedLength] at h
    split at h
    · rename_i hc
      obtain rfl := Option.some.inj h
      exact ⟨[q], [], by rw [hc]; rfl, .close, rfl⟩
    · cases h
  | c :: d :: cs, n, h => by
    rw [quotedLength] at h
    by_cases hc : c = q
    · rw [if_pos hc] at h
      by_cases hd : d = q
      · rw [if_pos hd] at h
        obtain ⟨m, hm, rfl⟩ := Option.map_eq_some_iff.mp h
        obtain ⟨tail, rest, rfl, htail, rfl⟩ := exists_quoted hm
        exact ⟨q :: q :: tail, rest, by rw [hc, hd]; rfl, .doubled htail, rfl⟩
      · rw [if_neg hd] at h
        obtain rfl := Option.some.inj h
        exact ⟨[q], d :: cs, by rw [hc]; rfl, .close, rfl⟩
    · rw [if_neg hc] at h
      obtain ⟨m, hm, rfl⟩ := Option.map_eq_some_iff.mp h
      obtain ⟨tail, rest, hcs, htail, rfl⟩ := exists_quoted hm
      exact ⟨c :: tail, rest, by rw [hcs]; rfl, .char hc htail, rfl⟩

end Quoted

/-! ## Targets -/

section Targets

variable {q : Char} {p cs rest : List Char}

/-- The target that spells a path in these characters. -/
def Target.spanning (path taken : List Char) : Target :=
  ⟨path, taken.length, Text.byteLength taken⟩

theorem push_spanning (c : Char) (unit : List Char) :
    (Target.spanning p cs).push c unit = .spanning (c :: p) (unit ++ cs) := by
  simp only [Target.push, Target.spanning, List.length_append, Text.byteLength_append]

theorem close_eq_spanning (q : Char) : Target.close q = .spanning [] [q] := rfl

theorem quotedRest_append (hq : q = '"' ∨ q = '\'') (h : Form.QuotedTarget q p cs)
    (hrest : ∀ d ∈ rest.head?, d ≠ q) :
    Target.quotedRest q (cs ++ rest) = some (.spanning p cs) := by
  have hescape : q ≠ '\\' := by rcases hq with rfl | rfl <;> decide
  induction h with
  | close =>
    cases rest with
    | nil => simp [Target.quotedRest, close_eq_spanning]
    | cons d rest => simp [Target.quotedRest, hescape, hrest d rfl, close_eq_spanning]
  | escaped _ ih => simp [Target.quotedRest, ih, push_spanning]
  | doubled _ ih => simp [Target.quotedRest, hescape, ih, push_spanning]
  | @char c p cs hc hc' hcs ih =>
    obtain ⟨d, cs', rfl⟩ : ∃ d cs', cs = d :: cs' := by
      cases hcs <;> exact ⟨_, _, rfl⟩
    rw [List.cons_append] at ih
    simp [Target.quotedRest, hc, hc', ih, push_spanning]

/-- What is read as the rest of a quoted target is of the form, and no further quote follows. -/
theorem exists_quotedTarget : ∀ {cs : List Char} {t : Target}, Target.quotedRest q cs = some t →
    ∃ tail rest, cs = tail ++ rest ∧ Form.QuotedTarget q t.path tail ∧
      t = .spanning t.path tail ∧ ∀ d ∈ rest.head?, d ≠ q
  | [c], t, h => by
    by_cases hescape : c = '\\'
    · rw [hescape] at h
      cases h
    · rw [Target.quotedRest] at h
      · split at h
        · rename_i hc
          obtain rfl := Option.some.inj h
          exact ⟨[q], [], by rw [hc]; rfl, .close, rfl, by simp⟩
        · cases h
      · exact hescape
  | c :: d :: cs, t, h => by
    rw [Target.quotedRest] at h
    by_cases hescape : c = '\\'
    · rw [if_pos hescape] at h
      obtain ⟨u, hu, rfl⟩ := Option.map_eq_some_iff.mp h
      obtain ⟨tail, rest, rfl, htail, hspan, hrest⟩ := exists_quotedTarget hu
      refine ⟨'\\' :: d :: tail, rest, by rw [hescape]; rfl, .escaped htail, ?_, hrest⟩
      rw [hspan, hescape, push_spanning]
      rfl
    · rw [if_neg hescape] at h
      by_cases hc : c = q
      · rw [if_pos hc] at h
        by_cases hd : d = q
        · rw [if_pos hd] at h
          obtain ⟨u, hu, rfl⟩ := Option.map_eq_some_iff.mp h
          obtain ⟨tail, rest, rfl, htail, hspan, hrest⟩ := exists_quotedTarget hu
          refine ⟨q :: q :: tail, rest, by rw [hc, hd]; rfl, .doubled htail, ?_, hrest⟩
          rw [hspan, hc, hd, push_spanning]
          rfl
        · rw [if_neg hd] at h
          obtain rfl := Option.some.inj h
          exact ⟨[q], d :: cs, by rw [hc]; rfl, .close, rfl, by simpa using hd⟩
      · rw [if_neg hc] at h
        obtain ⟨u, hu, rfl⟩ := Option.map_eq_some_iff.mp h
        obtain ⟨tail, rest, hcs, htail, hspan, hrest⟩ := exists_quotedTarget hu
        refine ⟨c :: tail, rest, by rw [hcs]; rfl, .char hc hescape htail, ?_, hrest⟩
        rw [hspan, push_spanning]
        rfl

theorem Form.QuotedTarget.getLast? (h : Form.QuotedTarget q p cs) : cs.getLast? = some q := by
  induction h with
  | close => rfl
  | escaped h ih | doubled h ih | char _ _ h ih => simp [List.getLast?_cons, ih]

theorem scan_target {t : List Char} (h : Form.Target p t)
    (hrest : ∀ d ∈ rest.head?, endsTarget t d) :
    Target.scan (t ++ rest) = some (.spanning p t) := by
  cases h with
  | @quoted q p cs hq hcs =>
    have hne : ∀ d ∈ rest.head?, d ≠ q := by
      intro d hd
      have hend := hrest d hd
      have hlast : (q :: cs).getLast? = some q := by simp [List.getLast?_cons, hcs.getLast?]
      rw [endsTarget, hlast] at hend
      rcases hq with rfl | rfl <;> simpa using hend
    rw [List.cons_append, Target.scan, if_pos hq, quotedRest_append hq hcs hne, Option.map_some]
    simp only [Target.spanning, List.length_cons, Text.byteLength_cons, Nat.add_comm]
  | @bare c cs hdigit hbare =>
    have hquote : ∀ d ∈ c :: cs, ¬ (d = '"' ∨ d = '\'') := by
      rintro d hd (rfl | rfl) <;> exact hbare _ hd (by decide)
    have hend : ∀ d ∈ rest.head?, Target.endsBare d := by
      intro d hd
      have hend := hrest d hd
      obtain ⟨e, he⟩ : ∃ e, (c :: cs).getLast? = some e := ⟨_, List.getLast?_cons⟩
      have hne := not_or.mp (hquote e (List.mem_of_getLast? he))
      simpa [endsTarget, he, hne] using hend
    have htake : (cs ++ rest).takeWhile (fun d => !Target.endsBare d) = cs :=
      takeWhile_append_stop (fun d hd => by simpa using hbare d (List.mem_cons_of_mem _ hd))
        fun d hd => by simp [hend d hd]
    rw [List.cons_append, Target.scan, if_neg (hquote c List.mem_cons_self),
      if_neg (not_or.mpr ⟨hdigit, hbare c List.mem_cons_self⟩), htake]
    rfl

theorem exists_target {t : Target} (h : Target.scan cs = some t) :
    ∃ text rest, cs = text ++ rest ∧ Form.Target t.path text ∧ t = .spanning t.path text := by
  cases cs with
  | nil => cases h
  | cons c cs =>
    rw [Target.scan] at h
    by_cases hq : c = '"' ∨ c = '\''
    · rw [if_pos hq] at h
      obtain ⟨u, hu, rfl⟩ := Option.map_eq_some_iff.mp h
      obtain ⟨tail, rest, rfl, htail, hspan, -⟩ := exists_quotedTarget hu
      refine ⟨c :: tail, rest, rfl, .quoted hq htail, ?_⟩
      rw [hspan]
      simp only [Target.spanning, List.length_cons, Text.byteLength_cons, Nat.add_comm]
    · rw [if_neg hq] at h
      split at h
      · cases h
      · rename_i hc
        obtain ⟨hdigit, hend⟩ := not_or.mp hc
        obtain rfl := Option.some.inj h
        refine ⟨c :: cs.takeWhile (fun d => !Target.endsBare d),
          cs.dropWhile (fun d => !Target.endsBare d),
          by rw [List.cons_append, List.takeWhile_append_dropWhile], .bare hdigit ?_, rfl⟩
        intro d hd
        rcases List.mem_cons.mp hd with rfl | hd
        · exact hend
        · have hall := List.all_takeWhile (p := fun d => !Target.endsBare d) (l := cs)
          simpa using List.all_eq_true.mp hall d hd

end Targets

/-! ## Symbols -/

namespace Symbol

theorem ofPair?_eq_some {c d : Char} {s : Symbol} (h : ofPair? c d = some s) :
    s.spelling.toList = [c, d] := by
  unfold ofPair? at h
  split at h
  all_goals first | (obtain rfl := Option.some.inj h; rfl) | cases h

theorem ofChar?_eq_some {c : Char} {s : Symbol} (h : ofChar? c = some s) :
    s.spelling.toList = [c] := by
  unfold ofChar? at h
  split at h
  all_goals first | (obtain rfl := Option.some.inj h; rfl) | cases h

theorem exists_scan {c : Char} {cs : List Char} {s : Symbol} {n : Nat}
    (h : scan c cs = some (s, n)) :
    ∃ tail rest, cs = tail ++ rest ∧ s.spelling.toList = c :: tail ∧ n = tail.length := by
  have hsingle : (ofChar? c).map (·, 0) = some (s, n) →
      s.spelling.toList = [c] ∧ n = 0 := by
    intro h
    obtain ⟨s', hs', heq⟩ := Option.map_eq_some_iff.mp h
    obtain ⟨rfl, rfl⟩ := Prod.mk.inj heq
    exact ⟨ofChar?_eq_some hs', rfl⟩
  cases cs with
  | nil =>
    obtain ⟨hs, rfl⟩ := hsingle h
    exact ⟨[], [], rfl, hs, rfl⟩
  | cons d cs =>
    rw [scan] at h
    rcases Option.or_eq_some_iff.mp h with h | ⟨-, h⟩
    · obtain ⟨s', hs', heq⟩ := Option.map_eq_some_iff.mp h
      obtain ⟨rfl, rfl⟩ := Prod.mk.inj heq
      exact ⟨[d], cs, rfl, ofPair?_eq_some hs', rfl⟩
    · obtain ⟨hs, rfl⟩ := hsingle h
      exact ⟨[], d :: cs, rfl, hs, rfl⟩

/-- The first character of a symbol belongs to no other kind of token, but for the point. -/
theorem lead_spelling {s : Symbol} {c : Char} {cs : List Char} (h : s.spelling.toList = c :: cs) :
    ¬ isNameStart c ∧ ¬ c.isDigit ∧ c ≠ '"' ∧ c ≠ '\'' ∧ (c = '.' → s = .dot) := by
  cases s <;> obtain ⟨rfl, -⟩ := List.cons.inj h <;> decide

theorem ofChar?_spelling {s : Symbol} {c : Char} (h : s.spelling.toList = [c]) :
    ofChar? c = some s := by
  cases s <;> simp [spelling] at h <;> (subst h; rfl)

theorem ofPair?_spelling {s : Symbol} {c d : Char} {cs : List Char}
    (h : s.spelling.toList = c :: d :: cs) : ofPair? c d = some s ∧ cs = [] := by
  cases s <;> simp [spelling] at h <;> (obtain ⟨rfl, rfl, rfl⟩ := h; exact ⟨rfl, rfl⟩)

theorem ofPair?_of_mayPrecede {s : Symbol} {c d : Char} (h : s.spelling.toList = [c])
    (hd : Token.mayPrecede (.symbol s) s.spelling.toList d) : ofPair? c d = none := by
  by_cases hs : s = .dot
  · subst hs
    obtain ⟨rfl, -⟩ := List.cons.inj h
    rfl
  · rw [h] at hd
    cases s <;> first | exact absurd rfl hs | exact Option.isNone_iff_eq_none.mp hd

/-- A symbol is scanned to its end before whatever makes no longer symbol with it. -/
theorem scan_spelling {s : Symbol} {c : Char} {cs rest : List Char}
    (h : s.spelling.toList = c :: cs)
    (hrest : ∀ d ∈ rest.head?, Token.mayPrecede (.symbol s) s.spelling.toList d) :
    scan c (cs ++ rest) = some (s, cs.length) := by
  cases cs with
  | nil =>
    have hsingle := ofChar?_spelling h
    cases rest with
    | nil => simp [scan, hsingle]
    | cons d rest => simp [scan, hsingle, ofPair?_of_mayPrecede h (hrest d rfl)]
  | cons d cs =>
    obtain ⟨hpair, rfl⟩ := ofPair?_spelling h
    simp [scan, hpair]

end Symbol

/-! ## Written forms -/

namespace Token.Written

variable {text : List Char}

theorem ne_nil {t : Token} (h : t.Written text) : text ≠ [] := by
  cases h with
  | @keyword k w hk =>
    obtain ⟨c, cs, rfl, -, -⟩ := isName_of_map_toLower hk k.word_isName
    exact List.cons_ne_nil _ _
  | number h => cases h <;> exact List.cons_ne_nil _ _
  | symbol s => cases s <;> exact List.cons_ne_nil _ _
  | source hw =>
    obtain ⟨c, cs, rfl, -, -⟩ := hw.isName
    exact List.cons_ne_nil _ _
  | _ => exact List.cons_ne_nil _ _

theorem eq_spelling {s : Symbol} (h : Token.Written (.symbol s) text) :
    text = s.spelling.toList := by
  cases h
  rfl

theorem isNameStart_head {t : Token} {d : Char} (h : t.Written text)
    (ht : t = .ident ∨ ∃ k, t = .keyword k) (hd : d ∈ text.head?) : isNameStart d := by
  cases h with
  | ident hc =>
    obtain rfl := Option.some.inj hd
    exact hc
  | @keyword k w hk =>
    obtain ⟨c, cs, rfl, hc, -⟩ := isName_of_map_toLower hk k.word_isName
    obtain rfl := Option.some.inj hd
    exact hc
  | _ => rcases ht with ht | ⟨k, ht⟩ <;> cases ht

/-- No other token begins with a minus. -/
theorem eq_minus {t : Token} (h : t.Written text) (hd : '-' ∈ text.head?) :
    t = .symbol .minus := by
  cases h with
  | @keyword k w hk =>
    obtain ⟨c, cs, rfl, hc, -⟩ := isName_of_map_toLower hk k.word_isName
    obtain rfl := Option.some.inj hd
    exact absurd hc (by decide)
  | ident hc =>
    obtain rfl := Option.some.inj hd
    exact absurd hc (by decide)
  | number hw =>
    cases hw with
    | decimal hc =>
      obtain rfl := Option.some.inj hd
      exact absurd hc (by decide)
    | _ => cases hd
  | doubleQuoted | singleQuoted => cases hd
  | symbol s => cases s <;> first | rfl | cases hd
  | source hw =>
    obtain ⟨c, cs, rfl, hc, -⟩ := hw.isName
    obtain rfl := Option.some.inj hd
    exact absurd hc (by decide)

end Token.Written

/-- A name between double quotes is a written form. -/
theorem written_quoteName (name : String) :
    Token.Written .doubleQuoted (Text.quoteName name).toList := by
  have htext : (Text.quoteName name).toList = '"' :: (Text.double '"' name.toList ++ ['"']) :=
    String.toList_ofList
  rw [htext]
  exact .doubleQuoted (.of_double '"' name.toList)

end TreeQuery.Query
