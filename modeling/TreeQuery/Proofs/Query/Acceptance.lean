import TreeQuery.Proofs.Query.ExprComplete
import TreeQuery.Proofs.Query.ExprSound
import TreeQuery.Proofs.Query.Layout

/-!
# The accepted texts

A text is read as a statement iff it can be cut into lexemes and their tokens derive from the
grammar of statements (`Grammar.Statement`). `Layout` says which lexemes are read; here the
clauses of a layout are compared with those of the grammar, one after the other. The expressions
inside them are `Fragment.IsExpression.expr` in one direction and `exists_isExpression` in the
other.

Result: **`exists_ofText_iff`**.
-/

namespace TreeQuery.Query

open Grammar (isNaming)

variable {ls : List Lexeme}

/-! ## Splitting the tokens of a list -/

theorem map_token_eq_append {u v : List Token} (h : ls.map Lexeme.token = u ++ v) :
    ∃ us vs, ls = us ++ vs ∧ us.map Lexeme.token = u ∧ vs.map Lexeme.token = v := by
  obtain ⟨us, vs, hls, hu, hv⟩ := List.map_eq_append_iff.mp h
  exact ⟨us, vs, hls, hu, hv⟩

theorem map_token_eq_cons {t : Token} {v : List Token} (h : ls.map Lexeme.token = t :: v) :
    ∃ l vs, ls = l :: vs ∧ l.token = t ∧ vs.map Lexeme.token = v := by
  obtain ⟨l, vs, hls, hl, hv⟩ := List.map_eq_cons_iff.mp h
  exact ⟨l, vs, hls, hl, hv⟩

/-! ## Clause by clause -/

theorem exists_layout_expr_iff :
    (∃ f, Layout.Expr f ls) ↔ Grammar.Expr (ls.map Lexeme.token) := by
  constructor
  · rintro ⟨f, hf, hs⟩
    rw [← hs.tokens]
    exact hf.expr
  · exact exists_isExpression

section Separated

variable {α : Type} {R : α → List Lexeme → Prop} {P : List Token → Prop}

theorem exists_layout_separated_iff
    (h : ∀ {ls}, (∃ a, R a ls) ↔ P (ls.map Lexeme.token)) :
    (∃ as, Layout.Separated R as ls) ↔ Grammar.Separated P (ls.map Lexeme.token) := by
  constructor
  · rintro ⟨as, has⟩
    induction has with
    | one ha => exact .one (h.mp ⟨_, ha⟩)
    | more ha hc _ ih =>
      rw [List.map_append, List.map_cons, hc]
      exact .more (h.mp ⟨_, ha⟩) ih
  · intro hw
    generalize hls : ls.map Lexeme.token = w at hw
    induction hw generalizing ls with
    | one hw =>
      subst hls
      obtain ⟨a, ha⟩ := h.mpr hw
      exact ⟨[a], .one ha⟩
    | more hw _ ih =>
      obtain ⟨us, vs, rfl, rfl, hls1⟩ := map_token_eq_append hls
      obtain ⟨c, vs, rfl, hc, hls2⟩ := map_token_eq_cons hls1
      obtain ⟨a, ha⟩ := h.mpr hw
      obtain ⟨as, has⟩ := ih hls2
      exact ⟨a :: as, .more ha hc has⟩

end Separated

theorem exists_layout_column_iff :
    (∃ c, Layout.Column c ls) ↔ Grammar.Column (ls.map Lexeme.token) := by
  constructor
  · rintro ⟨c, hc⟩
    cases hc with
    | wildcard hstar =>
      rw [List.map_singleton, hstar]
      exact .wildcard
    | expr hf => exact .expr (exists_layout_expr_iff.mp ⟨_, hf⟩)
    | aliased hf ha hn =>
      rw [List.map_append, List.map_cons, ha]
      exact .aliased (exists_layout_expr_iff.mp ⟨_, hf⟩) hn
    | named hf hn =>
      rw [List.map_append, List.map_singleton, hn]
      exact .named (exists_layout_expr_iff.mp ⟨_, hf⟩)
  · intro hw
    generalize hls : ls.map Lexeme.token = w at hw
    cases hw with
    | wildcard =>
      obtain ⟨l, vs, rfl, hl, hls1⟩ := map_token_eq_cons hls
      obtain rfl := List.map_eq_nil_iff.mp hls1
      exact ⟨_, .wildcard hl⟩
    | expr hw =>
      subst hls
      obtain ⟨f, hf⟩ := exists_layout_expr_iff.mpr hw
      exact ⟨_, .expr hf⟩
    | aliased hw hn =>
      obtain ⟨us, vs, rfl, rfl, hls1⟩ := map_token_eq_append hls
      obtain ⟨a, vs, rfl, ha, hls2⟩ := map_token_eq_cons hls1
      obtain ⟨n, vs, rfl, rfl, hls3⟩ := map_token_eq_cons hls2
      obtain rfl := List.map_eq_nil_iff.mp hls3
      obtain ⟨f, hf⟩ := exists_layout_expr_iff.mpr hw
      exact ⟨_, .aliased hf ha hn⟩
    | named hw =>
      obtain ⟨us, vs, rfl, rfl, hls1⟩ := map_token_eq_append hls
      obtain ⟨n, vs, rfl, hn, hls2⟩ := map_token_eq_cons hls1
      obtain rfl := List.map_eq_nil_iff.mp hls2
      obtain ⟨f, hf⟩ := exists_layout_expr_iff.mpr hw
      exact ⟨_, .named hf hn⟩

theorem exists_layout_orderTerm_iff :
    (∃ f, Layout.OrderTerm f ls) ↔ Grammar.OrderTerm (ls.map Lexeme.token) := by
  constructor
  · rintro ⟨f, hf⟩
    cases hf with
    | plain hf => exact .plain (exists_layout_expr_iff.mp ⟨_, hf⟩)
    | directed hf hl =>
      have hw := exists_layout_expr_iff.mp ⟨_, hf⟩
      rw [List.map_append, List.map_singleton]
      rcases hl with hl | hl
      · rw [hl]
        exact .ascending hw
      · rw [hl]
        exact .descending hw
  · intro hw
    generalize hls : ls.map Lexeme.token = w at hw
    have hdirected : ∀ {u t}, Grammar.Expr u → w = u ++ [t] →
        t = .keyword .asc ∨ t = .keyword .desc → ∃ f, Layout.OrderTerm f ls := by
      rintro u t hu rfl ht
      obtain ⟨us, vs, rfl, rfl, hls1⟩ := map_token_eq_append hls
      obtain ⟨l, vs, rfl, rfl, hls2⟩ := map_token_eq_cons hls1
      obtain rfl := List.map_eq_nil_iff.mp hls2
      obtain ⟨f, hf⟩ := exists_layout_expr_iff.mpr hu
      exact ⟨_, .directed hf ht⟩
    cases hw with
    | plain hw =>
      subst hls
      obtain ⟨f, hf⟩ := exists_layout_expr_iff.mpr hw
      exact ⟨f, .plain hf⟩
    | ascending hw => exact hdirected hw rfl (.inl rfl)
    | descending hw => exact hdirected hw rfl (.inr rfl)

theorem exists_layout_quantifier_iff :
    (∃ d, Layout.Quantifier d ls) ↔ Grammar.Quantifier (ls.map Lexeme.token) := by
  constructor
  · rintro ⟨d, hd⟩
    cases hd with
    | none => exact .none
    | distinct hl =>
      rw [List.map_singleton, hl]
      exact .distinct
    | all hl =>
      rw [List.map_singleton, hl]
      exact .all
  · intro hw
    generalize hls : ls.map Lexeme.token = w at hw
    cases hw with
    | none =>
      obtain rfl := List.map_eq_nil_iff.mp hls
      exact ⟨false, .none⟩
    | distinct =>
      obtain ⟨l, vs, rfl, hl, hls1⟩ := map_token_eq_cons hls
      obtain rfl := List.map_eq_nil_iff.mp hls1
      exact ⟨true, .distinct hl⟩
    | all =>
      obtain ⟨l, vs, rfl, hl, hls1⟩ := map_token_eq_cons hls
      obtain rfl := List.map_eq_nil_iff.mp hls1
      exact ⟨false, .all hl⟩

theorem exists_layout_where_iff :
    (∃ p, Layout.Where p ls) ↔ Grammar.Where (ls.map Lexeme.token) := by
  constructor
  · rintro ⟨p, hp⟩
    cases hp with
    | none => exact .none
    | some hl hf =>
      rw [List.map_cons, hl]
      exact .some (exists_layout_expr_iff.mp ⟨_, hf⟩)
  · intro hw
    generalize hls : ls.map Lexeme.token = w at hw
    cases hw with
    | none =>
      obtain rfl := List.map_eq_nil_iff.mp hls
      exact ⟨none, .none⟩
    | some hw =>
      obtain ⟨l, vs, rfl, hl, rfl⟩ := map_token_eq_cons hls
      obtain ⟨f, hf⟩ := exists_layout_expr_iff.mpr hw
      exact ⟨some f, .some hl hf⟩

theorem exists_layout_groupBy_iff :
    (∃ g h, Layout.GroupBy g h ls) ↔ Grammar.GroupBy (ls.map Lexeme.token) := by
  have hterms : ∀ {ls}, (∃ fs, Layout.Separated Layout.Expr fs ls) ↔
      Grammar.Separated Grammar.Expr (ls.map Lexeme.token) :=
    exists_layout_separated_iff exists_layout_expr_iff
  constructor
  · rintro ⟨g, h, hg⟩
    cases hg with
    | none => exact .none
    | some hg hb hfs =>
      rw [List.map_cons, List.map_cons, hg, hb]
      exact .some (hterms.mp ⟨_, hfs⟩)
    | having hg hb hfs hk hf =>
      rw [List.map_cons, List.map_cons, List.map_append, List.map_cons, hg, hb, hk]
      exact .having (hterms.mp ⟨_, hfs⟩) (exists_layout_expr_iff.mp ⟨_, hf⟩)
  · intro hw
    generalize hls : ls.map Lexeme.token = w at hw
    cases hw with
    | none =>
      obtain rfl := List.map_eq_nil_iff.mp hls
      exact ⟨[], none, .none⟩
    | some hws =>
      obtain ⟨g, vs, rfl, hg, hls1⟩ := map_token_eq_cons hls
      obtain ⟨b, vs, rfl, hb, rfl⟩ := map_token_eq_cons hls1
      obtain ⟨fs, hfs⟩ := hterms.mpr hws
      exact ⟨fs, none, .some hg hb hfs⟩
    | having hws hw =>
      obtain ⟨g, vs, rfl, hg, hls1⟩ := map_token_eq_cons hls
      obtain ⟨b, vs, rfl, hb, hls2⟩ := map_token_eq_cons hls1
      obtain ⟨us, vs, rfl, rfl, hls3⟩ := map_token_eq_append hls2
      obtain ⟨k, vs, rfl, hk, rfl⟩ := map_token_eq_cons hls3
      obtain ⟨fs, hfs⟩ := hterms.mpr hws
      obtain ⟨f, hf⟩ := exists_layout_expr_iff.mpr hw
      exact ⟨fs, some f, .having hg hb hfs hk hf⟩

theorem exists_layout_orderBy_iff :
    (∃ o, Layout.OrderBy o ls) ↔ Grammar.OrderBy (ls.map Lexeme.token) := by
  have hterms : ∀ {ls}, (∃ fs, Layout.Separated Layout.OrderTerm fs ls) ↔
      Grammar.Separated Grammar.OrderTerm (ls.map Lexeme.token) :=
    exists_layout_separated_iff exists_layout_orderTerm_iff
  constructor
  · rintro ⟨o, ho⟩
    cases ho with
    | none => exact .none
    | some ho hb hfs =>
      rw [List.map_cons, List.map_cons, ho, hb]
      exact .some (hterms.mp ⟨_, hfs⟩)
  · intro hw
    generalize hls : ls.map Lexeme.token = w at hw
    cases hw with
    | none =>
      obtain rfl := List.map_eq_nil_iff.mp hls
      exact ⟨[], .none⟩
    | some hws =>
      obtain ⟨o, vs, rfl, ho, hls1⟩ := map_token_eq_cons hls
      obtain ⟨b, vs, rfl, hb, rfl⟩ := map_token_eq_cons hls1
      obtain ⟨fs, hfs⟩ := hterms.mpr hws
      exact ⟨fs, .some ho hb hfs⟩

theorem exists_layout_limit_iff :
    (∃ n k, Layout.Limit n k ls) ↔ Grammar.Limit (ls.map Lexeme.token) := by
  constructor
  · rintro ⟨n, k, hlimit⟩
    cases hlimit with
    | none => exact .none
    | some hl hf =>
      rw [List.map_cons, hl]
      exact .some (exists_layout_expr_iff.mp ⟨_, hf⟩)
    | offset hl hf ho hg =>
      rw [List.map_cons, List.map_append, List.map_cons, hl, ho]
      exact .offset (exists_layout_expr_iff.mp ⟨_, hf⟩) (exists_layout_expr_iff.mp ⟨_, hg⟩)
    | comma hl hf hc hg =>
      rw [List.map_cons, List.map_append, List.map_cons, hl, hc]
      exact .comma (exists_layout_expr_iff.mp ⟨_, hf⟩) (exists_layout_expr_iff.mp ⟨_, hg⟩)
  · intro hw
    generalize hls : ls.map Lexeme.token = w at hw
    cases hw with
    | none =>
      obtain rfl := List.map_eq_nil_iff.mp hls
      exact ⟨none, none, .none⟩
    | some hw =>
      obtain ⟨l, vs, rfl, hl, rfl⟩ := map_token_eq_cons hls
      obtain ⟨f, hf⟩ := exists_layout_expr_iff.mpr hw
      exact ⟨some f, none, .some hl hf⟩
    | offset hw hv =>
      obtain ⟨l, vs, rfl, hl, hls1⟩ := map_token_eq_cons hls
      obtain ⟨us, vs, rfl, rfl, hls2⟩ := map_token_eq_append hls1
      obtain ⟨o, vs, rfl, ho, rfl⟩ := map_token_eq_cons hls2
      obtain ⟨f, hf⟩ := exists_layout_expr_iff.mpr hw
      obtain ⟨g, hg⟩ := exists_layout_expr_iff.mpr hv
      exact ⟨some f, some g, .offset hl hf ho hg⟩
    | comma hw hv =>
      obtain ⟨l, vs, rfl, hl, hls1⟩ := map_token_eq_cons hls
      obtain ⟨us, vs, rfl, rfl, hls2⟩ := map_token_eq_append hls1
      obtain ⟨c, vs, rfl, hc, rfl⟩ := map_token_eq_cons hls2
      obtain ⟨f, hf⟩ := exists_layout_expr_iff.mpr hw
      obtain ⟨g, hg⟩ := exists_layout_expr_iff.mpr hv
      exact ⟨some g, some f, .comma hl hf hc hg⟩

theorem exists_layout_iff :
    (∃ s, Layout s ls) ↔ Grammar.Statement (ls.map Lexeme.token) := by
  have hcolumns : ∀ {ls}, (∃ cs, Layout.Separated Layout.Column cs ls) ↔
      Grammar.Separated Grammar.Column (ls.map Lexeme.token) :=
    exists_layout_separated_iff exists_layout_column_iff
  constructor
  · rintro ⟨s, hselect, hq, hcs, hsource, hw, hg, ho, hl⟩
    simp only [List.map_cons, List.map_append, hselect, hsource]
    exact .select (exists_layout_quantifier_iff.mp ⟨_, hq⟩) (hcolumns.mp ⟨_, hcs⟩)
      (exists_layout_where_iff.mp ⟨_, hw⟩) (exists_layout_groupBy_iff.mp ⟨_, _, hg⟩)
      (exists_layout_orderBy_iff.mp ⟨_, ho⟩) (exists_layout_limit_iff.mp ⟨_, _, hl⟩)
  · intro hstmt
    generalize hls : ls.map Lexeme.token = w at hstmt
    obtain ⟨hq, hcs, hw, hg, ho, hl⟩ := hstmt
    obtain ⟨l, _, rfl, hselect, hls1⟩ := map_token_eq_cons hls
    obtain ⟨qs, _, rfl, rfl, hls2⟩ := map_token_eq_append hls1
    obtain ⟨cs, _, rfl, rfl, hls3⟩ := map_token_eq_append hls2
    obtain ⟨src, _, rfl, hsource, hls4⟩ := map_token_eq_cons hls3
    obtain ⟨ws, _, rfl, rfl, hls5⟩ := map_token_eq_append hls4
    obtain ⟨gs, _, rfl, rfl, hls6⟩ := map_token_eq_append hls5
    obtain ⟨os, lims, rfl, rfl, rfl⟩ := map_token_eq_append hls6
    obtain ⟨d, hq⟩ := exists_layout_quantifier_iff.mpr hq
    obtain ⟨c, hc⟩ := hcolumns.mpr hcs
    obtain ⟨p, hp⟩ := exists_layout_where_iff.mpr hw
    obtain ⟨g, h, hg⟩ := exists_layout_groupBy_iff.mpr hg
    obtain ⟨o, ho⟩ := exists_layout_orderBy_iff.mpr ho
    obtain ⟨n, k, hl⟩ := exists_layout_limit_iff.mpr hl
    exact ⟨_, .select hselect hq hc hsource hp hg ho hl⟩

/-! ## Texts -/

/-- A text is read as a statement iff its lexemes are laid out as the words of that statement. -/
theorem outline_eq_ok_iff {text : String} {s : Statement Fragment} :
    Statement.outline text = .ok s ↔ ∃ ls, tokenize text = .ok ls ∧ Layout s ls := by
  simp only [← ofLexemes_eq_ok_iff]
  rw [Statement.outline]
  cases h : tokenize text with
  | error e => simp [bind, Except.bind]
  | ok ls => simp [bind, Except.bind]

theorem ofText_eq_ok_iff {text : String} {s : Statement String} :
    Statement.ofText text = .ok s ↔ ∃ o ls, tokenize text = .ok ls ∧ Layout o ls ∧
      s = o.map Fragment.text := by
  rw [Statement.ofText]
  constructor
  · intro h
    cases ho : Statement.outline text with
    | error e =>
      rw [ho] at h
      cases h
    | ok o =>
      rw [ho] at h
      obtain ⟨ls, hls, hlayout⟩ := outline_eq_ok_iff.mp ho
      exact ⟨o, ls, hls, hlayout, (Except.ok.inj h).symm⟩
  · rintro ⟨o, ls, hls, hlayout, rfl⟩
    rw [outline_eq_ok_iff.mpr ⟨ls, hls, hlayout⟩]
    rfl

/-- **A text is read as a statement** iff it can be cut into lexemes and their tokens derive from
the grammar of statements. -/
theorem exists_ofText_iff (text : String) :
    (∃ s, Statement.ofText text = .ok s) ↔
      ∃ ls, tokenize text = .ok ls ∧ Grammar.Statement (ls.map Lexeme.token) := by
  simp only [ofText_eq_ok_iff, ← exists_layout_iff]
  constructor
  · rintro ⟨s, o, ls, hls, hlayout, -⟩
    exact ⟨ls, hls, o, hlayout⟩
  · rintro ⟨ls, hls, o, hlayout⟩
    exact ⟨_, o, ls, hls, hlayout, rfl⟩

end TreeQuery.Query
