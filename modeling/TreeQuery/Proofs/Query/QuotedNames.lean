import TreeQuery.Proofs.Query.Confinement
import TreeQuery.Proofs.Query.Printing

/-!
# Names between quotes

A name is written between quotes with its own quotes doubled, and read again by undoing both. The
texts that `Text.quote` writes are just those that the lexer takes for one quoted lexeme
(`quoted_iff`), so quoting and unquoting undo each other on names and on lexemes.

**`quotes_read_back`** says this of every name and every quoted lexeme of every text, and of the
aliases in SQL: each is one quoted lexeme that stands for the alias of the statement.
-/

namespace TreeQuery.Query

/-! ## What is promised -/

/-- The quote of the tokens that stand between quotes. -/
def Token.quote? : Token → Option Char
  | .doubleQuoted => some '"'
  | .singleQuoted => some '\''
  | _ => none

/-- **A text is one quoted lexeme** that stands for the characters `cs`. -/
structure QuotesAs (text : String) (t : Token) (cs : List Char) : Prop where
  /-- The lexeme is all of the text. -/
  tokenize_eq : tokenize text = .ok [⟨t, 0, text.toList⟩]
  unquote_eq : Text.unquote text.toList = cs

/-- **An alias is read back** from the SQL of its projection: after the tokens of the expression
stand AS and one quoted lexeme, which stands for the alias. -/
def Projection.NamesBack (p : Projection) (name : String) : Prop :=
  ∃ (es ls : List Lexeme) (as l : Lexeme),
    tokenize p.expr = .ok es ∧ tokenize p.sql = .ok (ls ++ [as, l]) ∧
    ls.map Lexeme.spelling = es.map Lexeme.spelling ∧ as.token = .keyword .as_ ∧
    l.token = .doubleQuoted ∧ Text.unquote l.text = name.toList

/-! ## Quoted forms -/

section Quoted

variable {q : Char} {cs : List Char} {t : Token}

/-- **The quoted texts** are those whose quotes are all doubled, but for the last. -/
theorem quoted_iff : Form.Quoted q cs ↔ ∃ a, cs = Text.double q a ++ [q] := by
  constructor
  · intro h
    induction h with
    | close => exact ⟨[], rfl⟩
    | @char c _ hc _ ih =>
      obtain ⟨a, rfl⟩ := ih
      exact ⟨c :: a, by rw [Text.double, if_neg hc]; rfl⟩
    | doubled _ ih =>
      obtain ⟨a, rfl⟩ := ih
      exact ⟨q :: a, by rw [Text.double, if_pos rfl]; rfl⟩
  · rintro ⟨a, rfl⟩
    exact .of_double q a

/-- What is quoted again after its quotes were taken off is as it was. -/
theorem quote_unquote (hq : q = '"' ∨ q = '\'') (h : Form.Quoted q cs) :
    Text.quote q (Text.unquote (q :: cs)) = q :: cs := by
  obtain ⟨a, rfl⟩ := quoted_iff.mp h
  exact congrArg (Text.quote q) (Text.unquote_quote hq a)

theorem eq_of_quote? (h : t.quote? = some q) :
    q = '"' ∧ t = .doubleQuoted ∨ q = '\'' ∧ t = .singleQuoted := by
  cases t with
  | doubleQuoted => exact .inl ⟨(Option.some.inj h).symm, rfl⟩
  | singleQuoted => exact .inr ⟨(Option.some.inj h).symm, rfl⟩
  | _ => cases h

theorem written_quote_iff (h : t.quote? = some q) {text : List Char} :
    t.Written text ↔ ∃ cs, text = q :: cs ∧ Form.Quoted q cs := by
  rcases eq_of_quote? h with ⟨rfl, rfl⟩ | ⟨rfl, rfl⟩
  · constructor
    · rintro ⟨⟩
      exact ⟨_, rfl, by assumption⟩
    · rintro ⟨cs, rfl, hcs⟩
      exact .doubleQuoted hcs
  · constructor
    · rintro ⟨⟩
      exact ⟨_, rfl, by assumption⟩
    · rintro ⟨cs, rfl, hcs⟩
      exact .singleQuoted hcs

end Quoted

/-! ## Whole texts -/

theorem quotesAs_quote {t : Token} {q : Char} (h : t.quote? = some q) (a : List Char) :
    QuotesAs (String.ofList (Text.quote q a)) t a := by
  have hq : q = '"' ∨ q = '\'' := (eq_of_quote? h).imp And.left And.left
  constructor
  · refine tokenize_of_written ?_
    rw [String.toList_ofList, written_quote_iff h]
    exact ⟨_, rfl, .of_double q a⟩
  · rw [String.toList_ofList, Text.unquote_quote hq]

theorem quotesAs_quoteName (a : String) :
    QuotesAs (Text.quoteName a) .doubleQuoted a.toList := by
  rw [Text.quoteName]
  exact quotesAs_quote rfl a.toList

/-! ## Aliases -/

/-- A name behind AS is read back, whatever legible expression stands before it. -/
theorem Fragment.Legible.namesBack {f : Fragment} (h : f.Legible) (name : String) :
    (Projection.mk f.text (some name)).NamesBack name := by
  have has : Prints "AS".toList [lexeme (.keyword .as_) "AS".toList] := .keyword (by decide)
  have hprints := h.prints.spaced (has.spaced (.quoteName name))
  have hlexes := hprints forall_mem_head?_nil .nil
  rw [List.append_nil, List.append_nil] at hlexes
  have hsql : (Projection.mk f.text (some name)).sql.toList =
      f.text.toList ++ ' ' :: ("AS".toList ++ ' ' :: (Text.quoteName name).toList) := by
    simp [Projection.sql, String.toList_append]
  obtain ⟨es, hes, hspelled⟩ := h.tokenize_text
  rw [← hsql] at hlexes
  obtain ⟨all, hall, hspelling⟩ := exists_tokenize_iff.mpr hlexes
  rw [List.map_append] at hspelling
  obtain ⟨ls, tail, rfl, hls, htail⟩ := List.map_eq_append_iff.mp hspelling
  obtain ⟨as, last, rfl, has, hlast⟩ := List.map_eq_cons_iff.mp htail
  obtain ⟨l, rfl, hl⟩ := List.map_eq_singleton_iff.mp hlast
  rw [spelling_lexeme, Lexeme.spelling, Prod.mk.injEq] at has hl
  have hwords : es.map Lexeme.spelling = f.lexemes.map Lexeme.spelling :=
    hspelled.trans f.spells_lexemes
  have hspelled : ls.map Lexeme.spelling = es.map Lexeme.spelling := hls.trans hwords.symm
  have hunquoted : Text.unquote l.text = name.toList := by
    rw [hl.2, (quotesAs_quoteName name).unquote_eq]
  exact ⟨es, ls, as, l, hes, hall, hspelled, has.1, hl.1, hunquoted⟩

/-- Every alias of a request is read back. -/
theorem namesBack_of_ofText {text : String} {s : Statement String} {root : EntryId}
    (hs : Statement.ofText text = .ok s) {p : Projection} (hp : p ∈ (s.request root).columns)
    {name : String} (hname : p.alias? = some name) : p.NamesBack name := by
  have hexpr : p.expr ∈ (s.request root).fragments := by
    simp only [Request.fragments, List.append_assoc]
    exact List.mem_append_left _ (List.mem_map_of_mem hp)
  obtain ⟨f, ls, hterm, hls, htext⟩ := exists_orderTerm hs hexpr
  obtain ⟨expr, alias?⟩ := p
  obtain rfl : alias? = some name := hname
  obtain rfl : f.text = expr := htext
  exact (hterm.legible hls).namesBack name

/-- **Quoting and unquoting undo each other**, on names and on lexemes, and an alias in SQL is the
alias of the statement. -/
theorem quotes_read_back :
    (∀ a : String, QuotesAs (Text.quoteName a) .doubleQuoted a.toList) ∧
      (∀ (t : Token) (q : Char), t.quote? = some q → ∀ a : List Char,
        QuotesAs (String.ofList (Text.quote q a)) t a) ∧
      (∀ (text : String) (ls : List Lexeme), tokenize text = .ok ls → ∀ l ∈ ls, ∀ q,
        l.token.quote? = some q → Text.quote q (Text.unquote l.text) = l.text) ∧
      ∀ (text : String) (s : Statement String) (root : EntryId), Statement.ofText text = .ok s →
        ∀ e name, Column.expr e (some name) ∈ s.columns →
          ⟨e, some name⟩ ∈ (s.request root).columns ∧
            (Projection.mk e (some name)).NamesBack name := by
  refine ⟨quotesAs_quoteName, fun t q h a => quotesAs_quote h a, ?_, ?_⟩
  · intro text ls hls l hl q hq
    have hwritten := allWritten_of_tokenize hls l hl
    obtain ⟨cs, htext, hcs⟩ := (written_quote_iff hq).mp hwritten
    rw [htext]
    exact quote_unquote ((eq_of_quote? hq).imp And.left And.left) hcs
  · intro text s root hs e name h
    have hmem : ⟨e, some name⟩ ∈ (s.request root).columns :=
      List.mem_flatMap.mpr ⟨_, h, List.mem_singleton_self _⟩
    exact ⟨hmem, namesBack_of_ofText hs hmem rfl⟩

end TreeQuery.Query
