import TreeQuery.Proofs.Query.Completion
import TreeQuery.Proofs.Query.Printing

/-!
# Errors point at the first mistake

When a text is no statement, the error names the lexeme at which the first mistake was made: what
stands before it can be completed to a statement, and nothing that goes on with it can. If the
text is too short, all of it can be completed. NOT and the words of LIKE's family are read with a
look at the token after them. An error at one of them may only concern that token, so there the
mistake is known for certain with the next token.

What can be completed are token lists here. Every token has a written form (`exists_written`), so a
token list is the tokens of a text (`exists_tokenize_tokens`), and `Place.remainder` completes it.

Result: **`ofText_firstMistake`**.
-/

namespace TreeQuery.Query

/-! ## Texts for tokens -/

/-- Every token has a written form. -/
theorem exists_written (t : Token) : ∃ cs, t.Written cs := by
  cases t with
  | keyword k => exact ⟨k.word.toList, .keyword (by cases k <;> decide)⟩
  | source path =>
    have hfrom : Form.From "from".toList := by decide
    exact ⟨_, written_quoteTarget (.inr rfl) path hfrom⟩
  | ident => exact ⟨['a'], .ident (by decide) (by simp) (by decide) (by decide)⟩
  | number =>
    have hnumber : Form.Number ('1' :: ([] ++ ([] ++ []))) :=
      .decimal (by decide) (by simp) .none .none
    exact ⟨_, .number hnumber⟩
  | doubleQuoted => exact ⟨_, .doubleQuoted .close⟩
  | singleQuoted => exact ⟨_, .singleQuoted .close⟩
  | symbol s => exact ⟨_, .symbol s⟩

/-- **Every token list is the tokens of a text.** -/
theorem exists_tokenize_tokens (w : List Token) :
    ∃ text ls, tokenize text = .ok ls ∧ ls.map Lexeme.token = w := by
  have hcut : ∃ cs, Tokens cs w := by
    induction w with
    | nil => exact ⟨[], [], .nil, rfl⟩
    | cons t w ih =>
      obtain ⟨ds, hds⟩ := ih
      obtain ⟨cs, hcs⟩ := exists_written t
      exact ⟨cs ++ ' ' :: ds, (Tokens.single hcs).spaced hds⟩
  obtain ⟨cs, hcs⟩ := hcut
  rw [← String.toList_ofList (l := cs)] at hcs
  exact ⟨_, Tokens.iff_tokenize.mp hcs⟩

/-! ## Statements that begin with given tokens -/

/-- The tokens of a text that is a statement. -/
def IsStatement (w : List Token) : Prop :=
  ∃ text ls s, tokenize text = .ok ls ∧ Statement.ofText text = .ok s ∧ ls.map Lexeme.token = w

/-- The tokens begin those of a text that is a statement. -/
def BeginsStatement (w : List Token) : Prop :=
  ∃ v, IsStatement (w ++ v)

theorem ofLexemes_ok_iff {ls : List Lexeme} :
    (∃ o, Statement.ofLexemes ls = .ok o) ↔ Place.start.Accepts (ls.map Lexeme.token) := by
  rw [← readFrom_ok_iff (d := ⟨{}, []⟩)]
  cases ls with
  | nil => constructor <;> exact fun ⟨_, h⟩ => nomatch h
  | cons l ls => rfl

theorem isStatement_iff {w : List Token} : IsStatement w ↔ Place.start.Accepts w := by
  constructor
  · rintro ⟨text, ls, s, hls, hs, rfl⟩
    rw [ofText_of_tokenize hls] at hs
    cases ho : Statement.ofLexemes ls with
    | ok o => exact ofLexemes_ok_iff.mp ⟨o, ho⟩
    | error e => rw [ho] at hs; cases hs
  · intro h
    obtain ⟨text, ls, hls, rfl⟩ := exists_tokenize_tokens w
    obtain ⟨o, ho⟩ := ofLexemes_ok_iff.mpr h
    exact ⟨text, ls, _, hls, by rw [ofText_of_tokenize hls, ho]; rfl, rfl⟩

/-- What leads to a place is completed by the remainder of the place. -/
theorem Leads.isStatement {next : Option Token} {w : List Token} {q : Place}
    (h : Leads next .start w q) : IsStatement (w ++ q.remainder) := by
  obtain ⟨r, ended, hremainder, hfinish⟩ := Place.accepts_remainder (h.ordered trivial)
  have hadmits : q.Admits (q.remainder.head?.or none) := by
    rw [Option.or_none]
    exact q.admits_remainder
  exact isStatement_iff.mpr ⟨r, ended, (h.congr_next hadmits).append hremainder, hfinish⟩

/-- If a statement goes on with a token, the place before it has a step over it. -/
theorem Leads.step_of_beginsStatement {t : Token} {w v : List Token} {q : Place}
    (h : Leads (some t) .start w q) (hv : BeginsStatement (w ++ t :: v)) :
    ∃ v' s, q.step t ((v ++ v').head?) = .ok s := by
  obtain ⟨v', hstatement⟩ := hv
  obtain ⟨r, ended, hlead, -⟩ := isStatement_iff.mp hstatement
  rw [List.append_assoc, List.cons_append] at hlead
  obtain ⟨q', hw, hrest⟩ := hlead.exists_split
  obtain rfl := h.unique hw
  cases hrest with
  | step hs _ => exact ⟨v', _, by rwa [Option.or_none] at hs⟩

/-! ## The first mistake -/

/-- **The error is the first mistake** of the lexemes. -/
inductive FirstMistake : List Lexeme → SyntaxError → Prop where
  | empty : FirstMistake [] .empty
  /-- The lexemes before `l` begin a statement, and those up to `l` do not. If `l` looks ahead,
  those up to the lexeme after `l` do not. -/
  | unexpected {us l vs x} : BeginsStatement (us.map Lexeme.token) →
      (¬ l.token.looksAhead → ¬ BeginsStatement ((us ++ [l]).map Lexeme.token)) →
      (∀ m ∈ vs.head?, ¬ BeginsStatement ((us ++ [l, m]).map Lexeme.token)) →
      FirstMistake (us ++ l :: vs) (.unexpected x l.start)
  /-- A statement goes on after all of the lexemes. -/
  | incomplete {ls v x} : v ≠ [] → IsStatement (ls.map Lexeme.token ++ v) →
      FirstMistake ls (.incomplete x)

theorem Stops.firstMistake {ls : List Lexeme} {e : SyntaxError} (h : Stops .start ls e) :
    FirstMistake ls e := by
  cases h with
  | @unexpected us l vs q x hlead hstep =>
    refine .unexpected ⟨_, hlead.isStatement⟩ ?_ ?_
    · intro hlook hbegins
      rw [List.map_append, List.map_singleton] at hbegins
      obtain ⟨v', s, hs⟩ := hlead.step_of_beginsStatement hbegins
      rw [Place.step_next hlook q _ (vs.head?.map Lexeme.token), hstep] at hs
      cases hs
    · intro m hm hbegins
      rw [List.map_append, List.map_cons, List.map_singleton] at hbegins
      obtain ⟨v', s, hs⟩ := hlead.step_of_beginsStatement hbegins
      rw [Option.mem_def.mp hm, Option.map_some] at hstep
      rw [List.cons_append, List.head?_cons, hstep] at hs
      cases hs
  | @incomplete _ q x hlead hfinish =>
    refine .incomplete ?_ hlead.isStatement
    intro hremainder
    obtain ⟨r, ended, hdone, hend⟩ := Place.accepts_remainder (hlead.ordered trivial)
    rw [hremainder] at hdone
    cases hdone
    rw [hfinish] at hend
    cases hend

/-- **Errors point at the first mistake.** -/
theorem ofText_firstMistake {text : String} {ls : List Lexeme} {e : SyntaxError}
    (h : tokenize text = .ok ls) (he : Statement.ofText text = .error e) : FirstMistake ls e := by
  rw [ofText_of_tokenize h] at he
  cases ls with
  | nil =>
    obtain rfl := Except.error.inj he
    exact .empty
  | cons l ls =>
    rw [show Statement.ofLexemes (l :: ls) = readFrom .start {} (l :: ls) from rfl] at he
    cases hread : readFrom .start {} (l :: ls) with
    | ok o =>
      rw [hread] at he
      cases he
    | error e' =>
      rw [hread] at he
      obtain rfl := Except.error.inj he
      exact (stops_of_readFrom hread).firstMistake

/-- Where FROM comes, AND is still wanted. -/
theorem ofText_firstMistake_between :
    Statement.ofText "select (a between b from c" = .error (.unexpected .andInBetween 20) ∧
      ∃ ls, tokenize "select (a between b from c" = .ok ls ∧
        FirstMistake ls (.unexpected .andInBetween 20) := by
  have hread : tokenize "select (a between b from c" =
      .ok [⟨.keyword .select, 0, "select".toList⟩, ⟨.symbol .openParen, 7, ['(']⟩,
        ⟨.ident, 8, ['a']⟩, ⟨.keyword .between, 10, "between".toList⟩, ⟨.ident, 18, ['b']⟩,
        ⟨.source "c", 20, "from c".toList⟩] := by
    decide +kernel
  have herror : Statement.ofText "select (a between b from c" =
      .error (.unexpected .andInBetween 20) := by
    decide +kernel
  exact ⟨herror, _, hread, ofText_firstMistake hread herror⟩

end TreeQuery.Query
