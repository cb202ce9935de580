import Mathlib.Data.List.Chain
import TreeQuery.Proofs.Query.Scanning

/-!
# Reading SQL

What a reader of SQL sees in a text. Two views of a text are defined, neither of which knows how
the text was made.

* `outside` are the characters outside quoted texts, and `parens` counts parentheses among them.
* `Pieces` cuts a text into names, numbers, quoted texts and marks. It is a relation, and a text
  with a comment, an open quote or a character that SQL does not know has no pieces at all.

Results:
* `Pieces.outside`: what is seen outside the quotes is what the pieces say.
* `Pieces.unique`: a text has one list of pieces.
* `Pieces.append`: the pieces of a text that is put together.
-/

namespace TreeQuery.Query.Sql

/-! ## Characters -/

def isQuote (c : Char) : Bool :=
  c == '"' || c == '\''

/-- Whether two characters open a comment. -/
def opensComment (c d : Char) : Bool :=
  c == '-' && d == '-' || c == '/' && d == '*'

/-- The characters outside quoted texts, of which only the quotes stay, for a text that starts
inside the given quote. There are none if the text ends inside a quote. -/
def outside : Option Char → List Char → Option (List Char)
  | none, [] => some []
  | some _, [] => none
  | none, c :: cs => (outside (if isQuote c then some c else none) cs).map (c :: ·)
  | some q, c :: cs => if c = q then (outside none cs).map (c :: ·) else outside (some q) cs

/-- The depth of parentheses after a text that starts at a depth. There is none if it ever falls
below zero. -/
def parens : Nat → List Char → Option Nat
  | n, [] => some n
  | n, c :: cs =>
    if c = '(' then parens (n + 1) cs
    else if c = ')' then
      match n with
      | 0 => none
      | n + 1 => parens n cs
    else parens n cs

/-- **A text that may stand anywhere in an SQL expression**: its quotes and parentheses are closed,
and nothing outside its quotes ends the statement, is a parameter or begins a comment. -/
def Harmless (text : String) : Prop :=
  ∃ os, outside none text.toList = some os ∧ parens 0 os = some 0 ∧ ';' ∉ os ∧ '?' ∉ os ∧
    ¬ "--".toList <:+: os ∧ ¬ "/*".toList <:+: os

/-! ## Pieces -/

inductive Piece where
  /-- A name or a keyword. -/
  | word (text : List Char)
  | number (text : List Char)
  | quoted (text : List Char)
  /-- Any other character. -/
  | mark (c : Char)
  deriving DecidableEq, Repr

/-- The operators and the punctuation of SQL, character by character. -/
def markChars : List Char :=
  ['*', '/', '%', '+', '-', '&', '|', '<', '>', '=', '!', '~', '(', ')', ',', '.', ';', '?']

def isMark (c : Char) : Bool :=
  c ∈ markChars

/-- A gap or one piece, in front of the rest of a text. No comment opens with it. -/
inductive Front : List Char → List Char → Option Piece → Prop where
  | gap {c rest} : Text.isGap c → Front [c] rest none
  | word {c cs rest} : isNameStart c → (∀ d ∈ cs, isNameChar d) →
      (∀ d ∈ rest.head?, ¬ isNameChar d) → Front (c :: cs) rest (some (.word (c :: cs)))
  | number {c cs rest} : Form.Number (c :: cs) → EndsNumber rest →
      Front (c :: cs) rest (some (.number (c :: cs)))
  | quoted {q cs rest} : isQuote q → Form.Quoted q cs → (∀ d ∈ rest.head?, d ≠ q) →
      Front (q :: cs) rest (some (.quoted (q :: cs)))
  | mark {c rest} : isMark c → (∀ d ∈ rest.head?, ¬ opensComment c d) →
      (c = '.' → ∀ d ∈ rest.head?, ¬ d.isDigit) → Front [c] rest (some (.mark c))

/-- **The pieces of a text.** -/
inductive Pieces : List Char → List Piece → Prop where
  | nil : Pieces [] []
  | cons {part rest p ps} : Front part rest p → Pieces rest ps →
      Pieces (part ++ rest) (p.toList ++ ps)

theorem Pieces.gap {c : Char} {rest : List Char} {ps : List Piece} (hc : Text.isGap c)
    (h : Pieces rest ps) : Pieces (c :: rest) ps :=
  .cons (.gap hc) h

theorem Pieces.mark {c : Char} {rest : List Char} {ps : List Piece} (hc : isMark c)
    (hcomment : ∀ d ∈ rest.head?, ¬ opensComment c d)
    (hpoint : c = '.' → ∀ d ∈ rest.head?, ¬ d.isDigit) (h : Pieces rest ps) :
    Pieces (c :: rest) (.mark c :: ps) :=
  .cons (.mark hc hcomment hpoint) h

/-- One piece alone. -/
theorem Pieces.of_front {part : List Char} {p : Piece} (h : Front part [] (some p)) :
    Pieces part [p] := by
  have hpieces := Pieces.cons h .nil
  rwa [List.append_nil] at hpieces

/-- The marks among pieces. -/
def marks (ps : List Piece) : List Char :=
  ps.filterMap fun
    | .mark c => some c
    | _ => none

/-! ## Characters that decide nothing -/

/-- A character of a name or a number, signs apart. -/
def isPlain (c : Char) : Bool :=
  isNameChar c || c == '.' || c == '+'

theorem isPlain_of_isNameChar {c : Char} (h : isNameChar c) : isPlain c := by
  simp [isPlain, h]

/-- A number is plain, but for the minus that an exponent may have. -/
theorem number_cases {text : List Char} (h : Form.Number text) :
    (∀ c ∈ text, isPlain c) ∨ ∃ u ds, text = u ++ '-' :: ds ∧ (∀ c ∈ u, isPlain c) ∧
      Form.Digits ds := by
  have hdigits : ∀ {ds : List Char}, (∀ d ∈ ds, d.isDigit) → ∀ d ∈ ds, isPlain d :=
    fun hds d hd => isPlain_of_isNameChar (isNameChar_of_isDigit (hds d hd))
  have hexponent : ∀ {u es : List Char}, (∀ c ∈ u, isPlain c) → Form.Exponent es →
      (∀ c ∈ u ++ es, isPlain c) ∨ ∃ v ds, u ++ es = v ++ '-' :: ds ∧ (∀ c ∈ v, isPlain c) ∧
        Form.Digits ds := by
    intro u es hu hes
    cases hes with
    | none => exact .inl (by simpa using hu)
    | @some e sign ds he hsign hds =>
      have hplain : isPlain e := by rcases he with rfl | rfl <;> rfl
      rcases hsign with rfl | rfl | rfl
      · refine .inl (List.forall_mem_append.mpr ⟨hu, List.forall_mem_cons.mpr ⟨hplain, ?_⟩⟩)
        exact hdigits hds.2
      · refine .inl (List.forall_mem_append.mpr ⟨hu, List.forall_mem_cons.mpr ⟨hplain, ?_⟩⟩)
        exact List.forall_mem_cons.mpr ⟨rfl, hdigits hds.2⟩
      · refine .inr ⟨u ++ [e], ds, by simp, ?_, hds⟩
        exact List.forall_mem_append.mpr ⟨hu, by simpa using hplain⟩
  cases h with
  | @decimal d ds fs es hd hds hfs hes =>
    have hfraction : ∀ c ∈ fs, isPlain c := by
      cases hfs with
      | none => exact fun _ hc => nomatch hc
      | some hfs => exact List.forall_mem_cons.mpr ⟨rfl, hdigits hfs⟩
    have hwhole : ∀ c ∈ d :: (ds ++ fs), isPlain c :=
      List.forall_mem_cons.mpr ⟨isPlain_of_isNameChar (isNameChar_of_isDigit hd),
        List.forall_mem_append.mpr ⟨hdigits hds, hfraction⟩⟩
    simpa using hexponent hwhole hes
  | point hfs hes =>
    exact hexponent (List.forall_mem_cons.mpr ⟨rfl, hdigits hfs.2⟩) hes
  | @hexadecimal x ds hx _ hds =>
    refine .inl (List.forall_mem_cons.mpr ⟨rfl, List.forall_mem_cons.mpr ⟨?_, fun d hd => ?_⟩⟩)
    · rcases hx with rfl | rfl <;> rfl
    · exact isPlain_of_isNameChar (isNameChar_of_isHexDigit (hds d hd))

theorem isPlain_ne {c : Char} (h : isPlain c) :
    ¬ isQuote c ∧ (c ≠ '(' ∧ c ≠ ')' ∧ c ≠ ';' ∧ c ≠ '?') ∧ c ≠ '-' ∧ c ≠ '/' := by
  refine ⟨fun hq => ?_, ⟨?_, ?_, ?_, ?_⟩, ?_, ?_⟩
  · simp only [isQuote, Bool.or_eq_true, beq_iff_eq] at hq
    rcases hq with rfl | rfl <;> exact absurd h (by decide)
  all_goals
    rintro rfl
    exact absurd h (by decide)

/-! ## What is seen of a piece -/

/-- No two neighbours open a comment. -/
def NoComment (os : List Char) : Prop :=
  os.IsChain fun c d => ¬ opensComment c d

theorem noComment_append {l os : List Char} (hl : ∀ c ∈ l, c ≠ '-' ∧ c ≠ '/')
    (hos : NoComment os) : NoComment (l ++ os) := by
  induction l with
  | nil => exact hos
  | cons c l ih =>
    obtain ⟨hc, hl⟩ := List.forall_mem_cons.mp hl
    refine List.IsChain.cons (ih hl) fun d _ => ?_
    simp [opensComment, hc]

theorem outside_append {l : List Char} (hl : ∀ c ∈ l, ¬ isQuote c) (rest : List Char) :
    outside none (l ++ rest) = (outside none rest).map (l ++ ·) := by
  induction l with
  | nil => simp
  | cons c l ih =>
    obtain ⟨hc, hl⟩ := List.forall_mem_cons.mp hl
    rw [List.cons_append, outside, if_neg hc, ih hl, Option.map_map]
    rfl

theorem parens_append {os : List Char} (h : ∀ c ∈ os, c ≠ '(' ∧ c ≠ ')' ∧ c ≠ ';' ∧ c ≠ '?')
    (n : Nat) (rest : List Char) : parens n (os ++ rest) = parens n rest := by
  induction os with
  | nil => rfl
  | cons c os ih =>
    obtain ⟨hc, hos⟩ := List.forall_mem_cons.mp h
    rw [List.cons_append, parens.eq_def]
    simp only [if_neg hc.1, if_neg hc.2.1]
    exact ih hos

/-- The characters `os` are seen of a part of a text, whatever comes after it. -/
structure Shows (part os : List Char) : Prop where
  outside : ∀ rest, outside none (part ++ rest) = (outside none rest).map (os ++ ·)
  inert : ∀ c ∈ os, c ≠ '(' ∧ c ≠ ')' ∧ c ≠ ';' ∧ c ≠ '?'
  noComment : ∀ {rest}, NoComment rest → NoComment (os ++ rest)

theorem shows_self {l : List Char} (hl : ∀ c ∈ l, ¬ isQuote c ∧
    (c ≠ '(' ∧ c ≠ ')' ∧ c ≠ ';' ∧ c ≠ '?') ∧ c ≠ '-' ∧ c ≠ '/') : Shows l l where
  outside := outside_append fun c hc => (hl c hc).1
  inert := fun c hc => (hl c hc).2.1
  noComment := noComment_append fun c hc => (hl c hc).2.2

theorem shows_plain {l : List Char} (hl : ∀ c ∈ l, isPlain c) : Shows l l :=
  shows_self fun c hc => isPlain_ne (hl c hc)

theorem shows_gap {c : Char} (hc : Text.isGap c) : Shows [c] [c] := by
  refine shows_self fun d hd => ?_
  obtain rfl := List.mem_singleton.mp hd
  simp only [Text.isGap, Bool.or_eq_true, beq_iff_eq] at hc
  rcases hc with (((rfl | rfl) | rfl) | rfl) | rfl <;> decide

theorem Shows.append {l l' os os' : List Char} (h : Shows l os) (h' : Shows l' os') :
    Shows (l ++ l') (os ++ os') where
  outside := fun rest => by
    rw [List.append_assoc, h.outside, h'.outside, Option.map_map]
    simp [Function.comp_def]
  inert := List.forall_mem_append.mpr ⟨h.inert, h'.inert⟩
  noComment := fun hrest => by
    rw [List.append_assoc]
    exact h.noComment (h'.noComment hrest)

theorem shows_number {text : List Char} (h : Form.Number text) : Shows text text := by
  rcases number_cases h with h | ⟨u, ds, rfl, hu, hds⟩
  · exact shows_plain h
  · refine (shows_plain hu).append ?_
    have hplain : ∀ d ∈ ds, isPlain d :=
      fun d hd => isPlain_of_isNameChar (hds.isNameChar d hd)
    have hshows := shows_plain hplain
    obtain ⟨d, ds', rfl⟩ := List.exists_cons_of_ne_nil hds.1
    refine ⟨outside_append ?_, List.forall_mem_cons.mpr ⟨by decide, hshows.inert⟩, ?_⟩
    · exact List.forall_mem_cons.mpr ⟨by decide, fun c hc => (isPlain_ne (hplain c hc)).1⟩
    · intro rest hrest
      refine List.IsChain.cons (hshows.noComment hrest) fun e he => ?_
      obtain rfl := Option.some.inj he
      have hne := (isPlain_ne (hplain d List.mem_cons_self)).2.2.1
      simp [opensComment, hne]

/-- Of a quoted text only its quotes are seen. -/
theorem outside_quoted {q : Char} {cs : List Char} (hq : isQuote q) (h : Form.Quoted q cs) :
    ∃ ks : List Char, (∀ k ∈ ks, k = q) ∧
      ∀ rest, outside (some q) (cs ++ rest) = (outside none rest).map (ks ++ ·) := by
  induction h with
  | close => exact ⟨[q], by simp, fun rest => by simp [outside]⟩
  | char hc _ ih =>
    obtain ⟨ks, hks, houtside⟩ := ih
    exact ⟨ks, hks, fun rest => by rw [List.cons_append, outside, if_neg hc, houtside]⟩
  | doubled _ ih =>
    obtain ⟨ks, hks, houtside⟩ := ih
    refine ⟨q :: q :: ks, List.forall_mem_cons.mpr ⟨rfl, List.forall_mem_cons.mpr ⟨rfl, hks⟩⟩,
      fun rest => ?_⟩
    rw [List.cons_append, List.cons_append, outside, if_pos rfl, outside, if_pos hq, houtside]
    simp [Function.comp_def]

theorem shows_quoted {q : Char} {cs : List Char} (hq : isQuote q) (h : Form.Quoted q cs) :
    ∃ os, Shows (q :: cs) os := by
  obtain ⟨ks, hks, houtside⟩ := outside_quoted hq h
  have hall : ∀ k ∈ q :: ks, k = q := List.forall_mem_cons.mpr ⟨rfl, hks⟩
  have hne : (q ≠ '(' ∧ q ≠ ')' ∧ q ≠ ';' ∧ q ≠ '?') ∧ q ≠ '-' ∧ q ≠ '/' := by
    simp only [isQuote, Bool.or_eq_true, beq_iff_eq] at hq
    rcases hq with rfl | rfl <;> decide
  refine ⟨q :: ks, fun rest => ?_, fun k hk => ?_, noComment_append fun k hk => ?_⟩
  · rw [List.cons_append, outside, if_pos hq, houtside, Option.map_map]
    rfl
  · rw [hall k hk]
    exact hne.1
  · rw [hall k hk]
    exact hne.2

theorem outside_head {cs os : List Char} (h : outside none cs = some os) :
    os.head? = cs.head? := by
  cases cs with
  | nil =>
    obtain rfl := Option.some.inj h
    rfl
  | cons c cs =>
    rw [outside] at h
    obtain ⟨os', -, rfl⟩ := Option.map_eq_some_iff.mp h
    rfl

theorem isMark_ne {c : Char} (h : isMark c) : ¬ isQuote c := by
  intro hq
  simp only [isQuote, Bool.or_eq_true, beq_iff_eq] at hq
  rcases hq with rfl | rfl <;> exact absurd h (by decide)

/-! ## What is seen of a text -/

/-- The characters `os` are seen of a text with the pieces `ps`. -/
structure Seen (ps : List Piece) (os : List Char) : Prop where
  parens : ∀ n, parens n os = parens n (marks ps)
  marks : ∀ c, c = ';' ∨ c = '?' → c ∈ os → .mark c ∈ ps
  noComment : NoComment os

theorem Seen.append {part os os' : List Char} {ps : List Piece} (hpart : Shows part os)
    (h : Seen ps os') : Seen ps (os ++ os') := by
  refine ⟨fun n => ?_, fun c hc hmem => ?_, hpart.noComment h.noComment⟩
  · rw [parens_append hpart.inert, h.parens]
  · rcases List.mem_append.mp hmem with hmem | hmem
    · obtain ⟨-, -, h1, h2⟩ := hpart.inert c hmem
      rcases hc with rfl | rfl
      · exact absurd rfl h1
      · exact absurd rfl h2
    · exact h.marks c hc hmem

/-- A piece that is no mark. -/
theorem Seen.cons {p : Piece} {ps : List Piece} {os : List Char} (hp : ∀ c, p ≠ .mark c)
    (h : Seen ps os) : Seen (p :: ps) os := by
  have hmarks : Sql.marks (p :: ps) = Sql.marks ps := by
    cases p with
    | mark c => exact absurd rfl (hp c)
    | _ => rfl
  exact ⟨fun n => by rw [h.parens, hmarks],
    fun c hc hmem => List.mem_cons_of_mem _ (h.marks c hc hmem), h.noComment⟩

theorem parens_cons_congr {os ms : List Char} (h : ∀ n, parens n os = parens n ms) (c : Char)
    (n : Nat) : parens n (c :: os) = parens n (c :: ms) := by
  rw [parens.eq_def, parens.eq_def n (c :: ms)]
  simp only [h]

/-- **What is seen of a text** is what its pieces say: the same parentheses, no other marks, and no
comment. -/
theorem Pieces.outside {cs : List Char} {ps : List Piece} (h : Pieces cs ps) :
    ∃ os, Sql.outside none cs = some os ∧ Seen ps os := by
  have hshows : ∀ {part os rest : List Char} {ps : List Piece}, Shows part os →
      (∃ os, Sql.outside none rest = some os ∧ Seen ps os) →
      ∃ os, Sql.outside none (part ++ rest) = some os ∧ Seen ps os := by
    rintro part os rest ps hpart ⟨os', houtside, hseen⟩
    exact ⟨os ++ os', by rw [hpart.outside, houtside]; rfl, hseen.append hpart⟩
  induction h with
  | nil => exact ⟨[], rfl, fun _ => rfl, fun _ _ hc => (nomatch hc), List.IsChain.nil⟩
  | @cons part rest p ps hfront _ ih =>
    have hcons : ∀ {q : Piece}, (∀ c, q ≠ .mark c) →
        (∃ os, Sql.outside none (part ++ rest) = some os ∧ Seen ps os) →
        ∃ os, Sql.outside none (part ++ rest) = some os ∧ Seen (q :: ps) os := by
      rintro q hq ⟨os, houtside, hseen⟩
      exact ⟨os, houtside, hseen.cons hq⟩
    cases hfront with
    | gap hc => exact hshows (shows_gap hc) ih
    | word hc hcs =>
      refine hcons (fun _ h => nomatch h) (hshows (shows_plain (List.forall_mem_cons.mpr
        ⟨isPlain_of_isNameChar (isNameChar_of_isNameStart hc), fun d hd => ?_⟩)) ih)
      exact isPlain_of_isNameChar (hcs d hd)
    | number htext => exact hcons (fun _ h => nomatch h) (hshows (shows_number htext) ih)
    | quoted hq hcs =>
      obtain ⟨os, hos⟩ := shows_quoted hq hcs
      exact hcons (fun _ h => nomatch h) (hshows hos ih)
    | @mark c _ hc hcomment =>
      obtain ⟨os, houtside, hseen⟩ := ih
      refine ⟨c :: os, ?_, parens_cons_congr hseen.parens c, fun d hd hmem => ?_,
        hseen.noComment.cons ?_⟩
      · rw [List.singleton_append, Sql.outside, if_neg (isMark_ne hc), houtside]
        rfl
      · rcases List.mem_cons.mp hmem with rfl | hmem
        · exact List.mem_cons_self
        · exact List.mem_cons_of_mem _ (hseen.marks d hd hmem)
      · rw [outside_head houtside]
        exact hcomment

theorem not_infix_of_noComment {os : List Char} {c d : Char} (h : NoComment os)
    (hcd : opensComment c d) : ¬ [c, d] <:+: os := by
  intro hinside
  have hchain := List.IsChain.infix h hinside
  exact (List.isChain_cons_cons.mp hchain).1 hcd

/-- A text is harmless if its pieces are. -/
theorem Pieces.harmless {text : String} {ps : List Piece} (h : Pieces text.toList ps)
    (hparens : parens 0 (marks ps) = some 0) (hend : .mark ';' ∉ ps) (hparameter : .mark '?' ∉ ps) :
    Harmless text := by
  obtain ⟨os, houtside, hseen⟩ := h.outside
  exact ⟨os, houtside, (hseen.parens 0).trans hparens,
    fun hc => hend (hseen.marks _ (.inl rfl) hc),
    fun hc => hparameter (hseen.marks _ (.inr rfl) hc),
    not_infix_of_noComment hseen.noComment rfl, not_infix_of_noComment hseen.noComment rfl⟩

/-! ## A text has one list of pieces -/

/-- The kinds of pieces, and the space between them. -/
inductive Kind where
  | gap | word | number | quoted | mark
  deriving DecidableEq, Repr

/-- The kind of what stands in front of a text. -/
def kind : List Char → Option Kind
  | [] => none
  | c :: cs =>
    if Text.isGap c then some .gap
    else if isNameStart c then some .word
    else if c.isDigit ∨ c = '.' ∧ 0 < digitsLength cs then some .number
    else if isQuote c then some .quoted
    else some .mark

/-- The kind of a piece. -/
def Piece.kind : Piece → Kind
  | word _ => .word
  | number _ => .number
  | quoted _ => .quoted
  | mark _ => .mark

theorem kind_number {c : Char} {cs : List Char} (h : Form.Number (c :: cs)) (rest : List Char) :
    kind (c :: (cs ++ rest)) = some .number := by
  have hclass : ¬ Text.isGap c ∧ ¬ isNameStart c ∧
      (c.isDigit ∨ c = '.' ∧ 0 < digitsLength (cs ++ rest)) := by
    have hdigit : ∀ {c : Char}, c.isDigit → ¬ Text.isGap c ∧ ¬ isNameStart c := by
      intro c hc
      refine ⟨fun hgap => ?_, fun hname => not_isDigit_of_isNameStart hname hc⟩
      exact not_isNameChar_of_isBlank (Text.isBlank_of_isGap hgap) (isNameChar_of_isDigit hc)
    cases h with
    | decimal hc => exact ⟨(hdigit hc).1, (hdigit hc).2, .inl hc⟩
    | @point fs es hfs =>
      refine ⟨by decide, by decide, .inr ⟨rfl, ?_⟩⟩
      obtain ⟨d, ds, rfl⟩ := List.exists_cons_of_ne_nil hfs.1
      have hd := hfs.2 d List.mem_cons_self
      simp [digitsLength, hd]
    | hexadecimal => exact ⟨by decide, by decide, .inl rfl⟩
  rw [kind, if_neg hclass.1, if_neg hclass.2.1, if_pos hclass.2.2]

theorem kind_mark {c : Char} {rest : List Char} (hc : isMark c)
    (hpoint : c = '.' → ∀ d ∈ rest.head?, ¬ d.isDigit) : kind (c :: rest) = some .mark := by
  have hfraction : ¬ (c = '.' ∧ 0 < digitsLength rest) := by
    rintro ⟨rfl, hdigits⟩
    have hzero : digitsLength ([] ++ rest) = 0 := digitsLength_append (by simp) (hpoint rfl)
    rw [List.nil_append] at hzero
    omega
  have hclass : ¬ Text.isGap c ∧ ¬ isNameStart c ∧ ¬ c.isDigit ∧ ¬ isQuote c := by
    have hall : markChars.all fun c =>
        !(Text.isGap c || isNameStart c || c.isDigit || isQuote c) := by decide
    simpa [and_assoc] using List.all_eq_true.mp hall c (by simpa [isMark] using hc)
  rw [kind, if_neg hclass.1, if_neg hclass.2.1, if_neg (not_or.mpr ⟨hclass.2.2.1, hfraction⟩),
    if_neg hclass.2.2.2]

theorem Front.kind {part rest : List Char} {p : Option Piece} (h : Front part rest p) :
    Sql.kind (part ++ rest) = some ((p.map Piece.kind).getD .gap) := by
  cases h with
  | gap hc => rw [List.singleton_append, Sql.kind, if_pos hc]; rfl
  | word hc =>
    have hgap := fun hgap =>
      not_isNameChar_of_isBlank (Text.isBlank_of_isGap hgap) (isNameChar_of_isNameStart hc)
    rw [List.cons_append, Sql.kind, if_neg hgap, if_pos hc]
    rfl
  | number htext => exact kind_number htext rest
  | quoted hq =>
    simp only [isQuote, Bool.or_eq_true, beq_iff_eq] at hq
    rcases hq with rfl | rfl <;> rfl
  | mark hc _ hpoint => exact kind_mark hc hpoint

/-- What stands in front of a text is determined by the text. -/
theorem Front.unique {part part' rest rest' : List Char} {p p' : Option Piece}
    (h : Front part rest p) (h' : Front part' rest' p') (heq : part ++ rest = part' ++ rest') :
    part = part' ∧ p = p' := by
  have hkind := h.kind
  rw [heq, h'.kind] at hkind
  cases h with
  | gap =>
    cases h' with
    | gap =>
      obtain ⟨rfl, -⟩ := List.cons.inj heq
      exact ⟨rfl, rfl⟩
    | _ => cases hkind
  | word _ hcs hrest =>
    cases h' with
    | word _ hcs' hrest' =>
      rw [List.cons_append, List.cons_append] at heq
      obtain ⟨rfl, htail⟩ := List.cons.inj heq
      have htake := takeWhile_append_stop hcs hrest
      rw [htail, takeWhile_append_stop hcs' hrest'] at htake
      subst htake
      exact ⟨rfl, rfl⟩
    | _ => cases hkind
  | number htext hrest =>
    cases h' with
    | number htext' hrest' =>
      rw [List.cons_append, List.cons_append] at heq
      obtain ⟨rfl, htail⟩ := List.cons.inj heq
      have hscan := scan_number htext hrest
      rw [htail, scan_number htext' hrest'] at hscan
      have hlength := (Prod.mk.inj (Except.ok.inj hscan)).2
      obtain ⟨rfl, -⟩ := List.append_inj htail hlength.symm
      exact ⟨rfl, rfl⟩
    | _ => cases hkind
  | quoted _ hcs hrest =>
    cases h' with
    | quoted _ hcs' hrest' =>
      rw [List.cons_append, List.cons_append] at heq
      obtain ⟨rfl, htail⟩ := List.cons.inj heq
      have hquoted := quotedLength_append hcs hrest
      rw [htail, quotedLength_append hcs' hrest'] at hquoted
      obtain ⟨rfl, -⟩ := List.append_inj htail (Option.some.inj hquoted).symm
      exact ⟨rfl, rfl⟩
    | _ => cases hkind
  | mark =>
    cases h' with
    | mark =>
      obtain ⟨rfl, -⟩ := List.cons.inj heq
      exact ⟨rfl, rfl⟩
    | _ => cases hkind

/-- A text has one list of pieces. -/
theorem Pieces.unique {cs : List Char} {ps qs : List Piece} (h : Pieces cs ps)
    (h' : Pieces cs qs) : ps = qs := by
  induction h generalizing qs with
  | nil =>
    generalize hl : ([] : List Char) = l at h'
    cases h' with
    | nil => rfl
    | cons hfront =>
      cases hfront <;> cases hl
  | @cons part rest p ps hfront _ ih =>
    generalize hl : part ++ rest = l at h'
    cases h' with
    | nil => cases hfront <;> cases hl
    | cons hfront' h' =>
      obtain ⟨rfl, rfl⟩ := hfront.unique hfront' hl
      obtain rfl := List.append_cancel_left hl
      rw [ih h']

/-! ## Texts that are put together -/

theorem endsFragment_ne {d : Char} (h : endsFragment d) :
    ¬ isNameChar d ∧ ¬ d.isDigit ∧ ¬ isQuote d ∧ d ≠ '.' ∧ ∀ c, ¬ opensComment c d := by
  simp only [endsFragment, Bool.or_eq_true, beq_iff_eq] at h
  rcases h with (rfl | rfl) | rfl <;> simp [opensComment] <;> decide

theorem Front.append {part cs rest : List Char} {p : Option Piece} (h : Front part cs p)
    (hrest : ∀ d ∈ rest.head?, endsFragment d) : Front part (cs ++ rest) p := by
  have hends := fun d hd => endsFragment_ne (hrest d hd)
  cases h with
  | gap hc => exact .gap hc
  | word hc hcs hnext =>
    exact .word hc hcs (forall_mem_head?_append hnext fun d hd => (hends d hd).1)
  | number htext hnext =>
    refine .number htext (forall_mem_head?_append hnext fun d hd => ?_)
    exact ⟨(hends d hd).1, (hends d hd).2.2.2.1⟩
  | quoted hq hcs hnext =>
    refine .quoted hq hcs (forall_mem_head?_append hnext fun d hd => ?_)
    rintro rfl
    exact (hends d hd).2.2.1 hq
  | mark hc hcomment hpoint =>
    refine .mark hc (forall_mem_head?_append hcomment fun d hd => ?_) fun h => ?_
    · exact (hends d hd).2.2.2.2 _
    · exact forall_mem_head?_append (hpoint h) fun d hd => (hends d hd).2.1

/-- **The pieces of two texts**, if the second begins with what may follow every piece. -/
theorem Pieces.append {cs rest : List Char} {ps qs : List Piece} (h : Pieces cs ps)
    (hrest : ∀ d ∈ rest.head?, endsFragment d) (h' : Pieces rest qs) :
    Pieces (cs ++ rest) (ps ++ qs) := by
  induction h with
  | nil => exact h'
  | cons hfront _ ih =>
    rw [List.append_assoc, List.append_assoc]
    exact .cons (hfront.append hrest) ih

end TreeQuery.Query.Sql
