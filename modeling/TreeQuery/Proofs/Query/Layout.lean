import TreeQuery.Proofs.Query.ExprRun

/-!
# The layout of a statement

Which lexemes of a statement belong to which clause. `Layout s ls` says that the lexemes `ls` are
those of a statement with the parts of `s`: SELECT, then the columns, FROM and its target, and the
clauses in their order, each with the words of its fragments. The words of a fragment are the very
lexemes that stand in its clause, in order (`Fragment.Spells`).

**`ofLexemes_eq_ok_iff`**: lexemes are read as the statement `s` iff they are laid out as `s`. The
proof goes clause by clause. Each clause has an equivalence between a successful reading that
starts there and a clause that is laid out, followed by a successful reading of the rest.
-/

namespace TreeQuery.Query

open Grammar (isNaming)

namespace Layout

/-! ## The parts of a statement -/

/-- The lexemes of an expression. -/
def Expr (f : Fragment) (ls : List Lexeme) : Prop :=
  f.IsExpression ∧ f.Spells ls

/-- One or more pieces with commas between them. -/
inductive Separated {α : Type} (R : α → List Lexeme → Prop) : List α → List Lexeme → Prop where
  | one {a ls} : R a ls → Separated R [a] ls
  | more {a as ls ms} {c : Lexeme} : R a ls → c.token = .symbol .comma → Separated R as ms →
      Separated R (a :: as) (ls ++ c :: ms)

/-- The name that a lexeme gives. -/
def nameOf (l : Lexeme) : String :=
  String.ofList (Text.unquote l.text)

inductive Column : Query.Column Fragment → List Lexeme → Prop where
  | wildcard {l : Lexeme} : l.token = .symbol .star → Column .wildcard [l]
  | expr {f ls} : Expr f ls → Column (.expr f none) ls
  | aliased {f ls} {a n : Lexeme} : Expr f ls → a.token = .keyword .as_ → isNaming n.token →
      Column (.expr f (some (nameOf n))) (ls ++ [a, n])
  | named {f ls} {n : Lexeme} : Expr f ls → n.token = .ident →
      Column (.expr f (some (nameOf n))) (ls ++ [n])

inductive OrderTerm : Fragment → List Lexeme → Prop where
  | plain {f ls} : Expr f ls → OrderTerm f ls
  | directed {f ls} {l : Lexeme} : Expr f ls →
      l.token = .keyword .asc ∨ l.token = .keyword .desc →
      OrderTerm (f ++ [⟨l.token, l.text, false⟩]) (ls ++ [l])

/-- What stands between SELECT and the columns, and whether it is DISTINCT. -/
inductive Quantifier : Bool → List Lexeme → Prop where
  | none : Quantifier false []
  | distinct {l : Lexeme} : l.token = .keyword .distinct → Quantifier true [l]
  | all {l : Lexeme} : l.token = .keyword .all → Quantifier false [l]

inductive Where : Option Fragment → List Lexeme → Prop where
  | none : Where none []
  | some {l : Lexeme} {f ls} : l.token = .keyword .where_ → Expr f ls → Where (some f) (l :: ls)

/-- GROUP BY, and HAVING after it. -/
inductive GroupBy : List Fragment → Option Fragment → List Lexeme → Prop where
  | none : GroupBy [] none []
  | some {g b : Lexeme} {fs ls} : g.token = .keyword .group → b.token = .keyword .by_ →
      Separated Expr fs ls → GroupBy fs none (g :: b :: ls)
  | having {g b h : Lexeme} {fs ls f ms} : g.token = .keyword .group → b.token = .keyword .by_ →
      Separated Expr fs ls → h.token = .keyword .having → Expr f ms →
      GroupBy fs (some f) (g :: b :: (ls ++ h :: ms))

inductive OrderBy : List Fragment → List Lexeme → Prop where
  | none : OrderBy [] []
  | some {o b : Lexeme} {fs ls} : o.token = .keyword .order → b.token = .keyword .by_ →
      Separated OrderTerm fs ls → OrderBy fs (o :: b :: ls)

/-- LIMIT and OFFSET. Of two numbers with a comma between them the first is the offset. -/
inductive Limit : Option Fragment → Option Fragment → List Lexeme → Prop where
  | none : Limit none none []
  | some {l : Lexeme} {f ls} : l.token = .keyword .limit → Expr f ls →
      Limit (some f) none (l :: ls)
  | offset {l o : Lexeme} {f g ls ms} : l.token = .keyword .limit → Expr f ls →
      o.token = .keyword .offset → Expr g ms → Limit (some f) (some g) (l :: (ls ++ o :: ms))
  | comma {l c : Lexeme} {f g ls ms} : l.token = .keyword .limit → Expr f ls →
      c.token = .symbol .comma → Expr g ms → Limit (some g) (some f) (l :: (ls ++ c :: ms))

end Layout

/-- **The lexemes of a statement**, clause by clause. -/
inductive Layout : Statement Fragment → List Lexeme → Prop where
  | select {s src : Lexeme} {d q cs cl path p w g h gl o ol n k ll} :
      s.token = .keyword .select → Layout.Quantifier d q → Layout.Separated Layout.Column cs cl →
      src.token = .source path → Layout.Where p w → Layout.GroupBy g h gl →
      Layout.OrderBy o ol → Layout.Limit n k ll →
      Layout ⟨path, d, cs, p, g, h, o, n, k⟩
        (s :: (q ++ (cl ++ src :: (w ++ (gl ++ (ol ++ ll))))))

/-! ## Lists with commas -/

section Commas

variable {α σ : Type} {R : α → List Lexeme → Prop}

/-- What follows a piece: the end of the list, or a comma and the list again. -/
def CommaOr (stop start : List Lexeme → Prop) (ls : List Lexeme) : Prop :=
  stop ls ∨ ∃ c rest, ls = c :: rest ∧ c.token = .symbol .comma ∧ start rest

/-- A reading of pieces with commas between them, from the reading of one piece. -/
theorem separated_iff (put : σ → α → σ) (start stop : σ → List Lexeme → Prop)
    (hpiece : ∀ st ls, start st ls ↔ ∃ a al rest, ls = al ++ rest ∧ R a al ∧
      CommaOr (stop (put st a)) (start (put st a)) rest) (st : σ) (ls : List Lexeme) :
    start st ls ↔ ∃ as al rest, ls = al ++ rest ∧ Layout.Separated R as al ∧
      stop (as.foldl put st) rest := by
  constructor
  · intro h
    induction hn : ls.length using Nat.strongRecOn generalizing st ls with
    | ind n ih =>
      obtain ⟨a, al, rest, rfl, ha, hstop | ⟨c, rest, rfl, hc, hstart⟩⟩ := (hpiece _ _).mp h
      · exact ⟨[a], al, rest, rfl, .one ha, hstop⟩
      · have hlt : rest.length < n := by
          rw [← hn, List.length_append, List.length_cons]
          omega
        obtain ⟨as, bl, rest, rfl, has, hstop⟩ := ih _ hlt _ _ hstart rfl
        exact ⟨a :: as, al ++ c :: bl, rest, by simp, .more ha hc has, hstop⟩
  · rintro ⟨as, al, rest, rfl, has, hstop⟩
    induction has generalizing st with
    | one ha => exact (hpiece _ _).mpr ⟨_, _, _, rfl, ha, .inl hstop⟩
    | more ha hc _ ih =>
      refine (hpiece _ _).mpr ⟨_, _, _, by simp, ha, .inr ⟨_, _, rfl, hc, ih _ hstop⟩⟩

end Commas

/-! ## One expression -/

theorem endsExpression_of_endStep {c : Clause} {t : Token} {s : Step} (h : c.endStep t = .ok s) :
    endsExpression t := by
  unfold Clause.endStep tailStep at h
  repeat' split at h
  all_goals first | rfl | cases h

theorem readFrom_exprStart_iff {c : Clause} {st s : Statement Fragment} {ls : List Lexeme} :
    readFrom (.exprStart c) ⟨st, []⟩ ls = .ok s ↔
      ∃ f es rest, ls = es ++ rest ∧ Layout.Expr f es ∧ afterExpr c ⟨st, f⟩ rest = .ok s := by
  constructor
  · intro h
    obtain ⟨es, rest, f, hls, hs, hf, hafter⟩ := readFrom_expr h
    exact ⟨f, es, rest, hls, ⟨hf, hs⟩, hafter⟩
  · rintro ⟨f, es, rest, rfl, ⟨hf, hs⟩, hafter⟩
    rw [readFrom_of_isExpression hf hs]
    · exact hafter
    · intro l hl
      cases rest with
      | nil => cases hl
      | cons l' rest =>
        obtain rfl := Option.some.inj hl
        rw [afterExpr] at hafter
        split at hafter
        · exact endsExpression_of_endStep (by assumption)
        · cases hafter

/-! ## The clauses after FROM -/

/-- The word that opens a clause. -/
def Tail.keyword : Tail → Keyword
  | where_ => .where_
  | group => .group
  | order => .order
  | limit => .limit

/-- The place after the word that opens a clause. -/
def Tail.place : Tail → Place
  | where_ => .exprStart .predicate
  | group => .group
  | order => .order
  | limit => .exprStart .limit

theorem tailStep_eq_ok_iff {k : Nat} {e : Option Slot} {t : Token} {s : Step} :
    tailStep k e t = .ok s ↔
      ∃ c : Tail, k ≤ c.rank ∧ t = .keyword c.keyword ∧ s = ⟨e, .skip, c.place⟩ := by
  constructor
  · intro h
    unfold tailStep at h
    simp only at h
    repeat' split at h
    case h_1.isTrue hk => exact ⟨.where_, hk, rfl, (Except.ok.inj h).symm⟩
    case h_2.isTrue hk => exact ⟨.group, hk, rfl, (Except.ok.inj h).symm⟩
    case h_3.isTrue hk => exact ⟨.order, hk, rfl, (Except.ok.inj h).symm⟩
    case h_4.isTrue hk => exact ⟨.limit, hk, rfl, (Except.ok.inj h).symm⟩
    all_goals cases h
  · rintro ⟨c, hk, rfl, rfl⟩
    cases c <;> exact if_pos hk

/-- What is left of a statement once the clauses of lower rank than `k` are read. -/
def readTail (k : Nat) (st : Statement Fragment) :
    List Lexeme → Except SyntaxError (Statement Fragment)
  | [] => .ok st
  | l :: rest =>
    match tailStep k none l.token with
    | .ok s => readFrom s.place ⟨st, []⟩ rest
    | .error e => .error (.unexpected e l.start)

theorem readTail_eq_ok_iff {k : Nat} {st s : Statement Fragment} {ls : List Lexeme} :
    readTail k st ls = .ok s ↔ ls = [] ∧ st = s ∨ ∃ (c : Tail) (l : Lexeme) (rest : List Lexeme),
      ls = l :: rest ∧ k ≤ c.rank ∧ l.token = .keyword c.keyword ∧
        readFrom c.place ⟨st, []⟩ rest = .ok s := by
  cases ls with
  | nil => simp [readTail]
  | cons l rest =>
    rw [readTail]
    constructor
    · intro h
      split at h
      · rename_i step hstep
        obtain ⟨c, hk, ht, rfl⟩ := tailStep_eq_ok_iff.mp hstep
        exact .inr ⟨c, l, rest, rfl, hk, ht, h⟩
      · cases h
    · rintro (⟨h, -⟩ | ⟨c, l', rest', hls, hk, ht, h⟩)
      · cases h
      · obtain ⟨rfl, rfl⟩ := List.cons.inj hls
        rw [tailStep_eq_ok_iff.mpr ⟨c, hk, ht, rfl⟩]
        exact h

/-- A clause is left out, or its word comes next. -/
theorem readTail_rank_iff (c : Tail) {st s : Statement Fragment} {ls : List Lexeme} :
    readTail c.rank st ls = .ok s ↔ readTail (c.rank + 1) st ls = .ok s ∨
      ∃ (l : Lexeme) (rest : List Lexeme), ls = l :: rest ∧ l.token = .keyword c.keyword ∧
        readFrom c.place ⟨st, []⟩ rest = .ok s := by
  rw [readTail_eq_ok_iff, readTail_eq_ok_iff]
  constructor
  · rintro (h | ⟨c', l, rest, rfl, hk, ht, h⟩)
    · exact .inl (.inl h)
    · by_cases hc : c' = c
      · subst hc
        exact .inr ⟨l, rest, rfl, ht, h⟩
      · have hlt : c.rank + 1 ≤ c'.rank := by
          cases c <;> cases c' <;> first | exact absurd rfl hc | simp_all [Tail.rank]
        exact .inl (.inr ⟨c', l, rest, rfl, hlt, ht, h⟩)
  · rintro ((h | ⟨c', l, rest, rfl, hk, ht, h⟩) | ⟨l, rest, rfl, ht, h⟩)
    · exact .inl h
    · exact .inr ⟨c', l, rest, rfl, by omega, ht, h⟩
    · exact .inr ⟨c, l, rest, rfl, Nat.le_refl _, ht, h⟩

theorem readTail_four_iff {st s : Statement Fragment} {ls : List Lexeme} :
    readTail 4 st ls = .ok s ↔ ls = [] ∧ st = s := by
  rw [readTail_eq_ok_iff]
  constructor
  · rintro (h | ⟨c, _, _, _, hk, _⟩)
    · exact h
    · exact absurd hk (by cases c <;> decide)
  · exact .inl

/-! ## Clause by clause -/

section Clauses

variable {st s : Statement Fragment} {f : Fragment} {ls : List Lexeme}

theorem readFrom_sourceEnd : readFrom .sourceEnd ⟨st, []⟩ ls = readTail 0 st ls := by
  cases ls with
  | nil => rfl
  | cons l rest =>
    rw [readFrom, readTail, Place.step]
    cases h : tailStep 0 none l.token with
    | error e => rfl
    | ok step =>
      obtain ⟨c, -, -, rfl⟩ := tailStep_eq_ok_iff.mp h
      rfl

theorem tailStep_ended {k : Nat} {e : Option Slot} {t : Token} :
    tailStep k e t = (tailStep k none t).map fun step => { step with ended := e } := by
  unfold tailStep
  simp only
  repeat' split
  all_goals rfl

/-- After the expression of a clause that only a clause of rank `k` or more can follow. -/
theorem afterExpr_eq_readTail {c : Clause} {k : Nat} (hc : c ≠ .column)
    (hend : ∀ l ∈ ls.head?, c.endStep l.token = tailStep k (some c.slot) l.token) :
    afterExpr c ⟨st, f⟩ ls = readTail k (st.put f c.slot) ls := by
  cases ls with
  | nil =>
    rw [afterExpr, if_neg hc]
    rfl
  | cons l rest =>
    rw [afterExpr, readTail, hend l rfl, tailStep_ended]
    cases h : tailStep k none l.token with
    | error e => rfl
    | ok step =>
      obtain ⟨c, -, -, rfl⟩ := tailStep_eq_ok_iff.mp h
      rfl

theorem where_iff :
    readTail 0 st ls = .ok s ↔ ∃ p w rest, ls = w ++ rest ∧ Layout.Where p w ∧
      readTail 1 { st with predicate := p.or st.predicate } rest = .ok s := by
  have hafter : ∀ {f rest}, afterExpr .predicate ⟨st, f⟩ rest =
      readTail 1 { st with predicate := some f } rest :=
    afterExpr_eq_readTail (by decide) fun _ _ => rfl
  rw [show 0 = Tail.where_.rank from rfl, readTail_rank_iff]
  constructor
  · rintro (h | ⟨l, rest, rfl, ht, h⟩)
    · exact ⟨none, [], ls, rfl, .none, h⟩
    · obtain ⟨f, es, rest, rfl, hf, h⟩ := readFrom_exprStart_iff.mp h
      rw [hafter] at h
      exact ⟨some f, l :: es, rest, rfl, .some ht hf, h⟩
  · rintro ⟨p, w, rest, rfl, hw, h⟩
    cases hw with
    | none => exact .inl h
    | some ht hf =>
      refine .inr ⟨_, _, rfl, ht, readFrom_exprStart_iff.mpr ⟨_, _, _, rfl, hf, ?_⟩⟩
      rw [hafter]
      exact h

/-- What follows a group term but a comma: HAVING or the clauses after it. -/
def AfterGroup (s st : Statement Fragment) (ls : List Lexeme) : Prop :=
  readTail 2 st ls = .ok s ∨ ∃ (h : Lexeme) (rest : List Lexeme), ls = h :: rest ∧
    h.token = .keyword .having ∧ readFrom (.exprStart .having) ⟨st, []⟩ rest = .ok s

theorem head_of_readTail {k : Nat} (h : readTail k st ls = .ok s) :
    ∀ l ∈ ls.head?, ∃ c : Tail, l.token = .keyword c.keyword := by
  intro l hl
  rcases readTail_eq_ok_iff.mp h with ⟨rfl, -⟩ | ⟨c, l', rest, rfl, -, ht, -⟩
  · cases hl
  · obtain rfl := Option.some.inj hl
    exact ⟨c, ht⟩

theorem afterExpr_groupTerm_iff :
    afterExpr .groupTerm ⟨st, f⟩ ls = .ok s ↔
      CommaOr (AfterGroup s (st.put f .groupTerm))
        (fun rest => readFrom (.exprStart .groupTerm) ⟨st.put f .groupTerm, []⟩ rest = .ok s)
        ls := by
  have htail : (∀ l ∈ ls.head?, l.token ≠ .symbol .comma ∧ l.token ≠ .keyword .having) →
      afterExpr .groupTerm ⟨st, f⟩ ls = readTail 2 (st.put f .groupTerm) ls := by
    intro hl
    refine afterExpr_eq_readTail (by decide) fun l hmem => ?_
    obtain ⟨hcomma, hhaving⟩ := hl l hmem
    unfold Clause.endStep
    split <;> first | rfl | simp_all
  constructor
  · intro h
    by_cases hl : ∀ l ∈ ls.head?, l.token ≠ .symbol .comma ∧ l.token ≠ .keyword .having
    · rw [htail hl] at h
      exact .inl (.inl h)
    · cases ls with
      | nil => exact absurd (by simp) hl
      | cons l rest =>
        rw [afterExpr] at h
        by_cases hcomma : l.token = .symbol .comma
        · rw [hcomma] at h
          exact .inr ⟨l, rest, rfl, hcomma, h⟩
        · have hhaving : l.token = .keyword .having := by simpa [hcomma] using hl
          rw [hhaving] at h
          exact .inl (.inr ⟨l, rest, rfl, hhaving, h⟩)
  · rintro ((h | ⟨l, rest, rfl, ht, h⟩) | ⟨l, rest, rfl, ht, h⟩)
    · rw [htail]
      · exact h
      · intro l hl
        obtain ⟨c, ht⟩ := head_of_readTail h l hl
        rw [ht]
        exact ⟨by simp, by cases c <;> decide⟩
    · rw [afterExpr, ht]
      exact h
    · rw [afterExpr, ht]
      exact h

/-- The terms of GROUP BY add up. -/
theorem foldl_put_groupTerm (fs : List Fragment) :
    ∀ st : Statement Fragment,
      fs.foldl (fun st f => st.put f .groupTerm) st = { st with groupBy := st.groupBy ++ fs } := by
  induction fs with
  | nil => intro st; simp
  | cons f fs ih => intro st; rw [List.foldl_cons, ih]; simp [Statement.put]

theorem readFrom_groupTerms_iff :
    readFrom (.exprStart .groupTerm) ⟨st, []⟩ ls = .ok s ↔
      ∃ fs al rest, ls = al ++ rest ∧ Layout.Separated Layout.Expr fs al ∧
        AfterGroup s { st with groupBy := st.groupBy ++ fs } rest := by
  have hlist := separated_iff (R := Layout.Expr)
    (fun (st : Statement Fragment) f => st.put f .groupTerm)
    (fun st ls => readFrom (.exprStart .groupTerm) ⟨st, []⟩ ls = .ok s) (AfterGroup s)
    (by intro st ls; rw [readFrom_exprStart_iff]; simp only [afterExpr_groupTerm_iff]) st ls
  simp only [foldl_put_groupTerm] at hlist
  exact hlist

/-- GROUP and ORDER want BY. -/
theorem readFrom_by_iff {c : Tail} {k : Clause}
    (hc : c = .group ∧ k = .groupTerm ∨ c = .order ∧ k = .orderTerm) :
    readFrom c.place ⟨st, []⟩ ls = .ok s ↔ ∃ (b : Lexeme) (rest : List Lexeme),
      ls = b :: rest ∧ b.token = .keyword .by_ ∧
        readFrom (.exprStart k) ⟨st, []⟩ rest = .ok s := by
  cases ls with
  | nil => rcases hc with ⟨rfl, rfl⟩ | ⟨rfl, rfl⟩ <;> simp [readFrom, Tail.place, Place.finish]
  | cons b rest =>
    have hstep : b.token = .keyword .by_ → readFrom c.place ⟨st, []⟩ (b :: rest) =
        readFrom (.exprStart k) ⟨st, []⟩ rest := by
      intro hb
      rcases hc with ⟨rfl, rfl⟩ | ⟨rfl, rfl⟩ <;> rw [readFrom, hb] <;> rfl
    constructor
    · intro h
      by_cases hb : b.token = .keyword .by_
      · exact ⟨b, rest, rfl, hb, by rwa [← hstep hb]⟩
      · rcases hc with ⟨rfl, rfl⟩ | ⟨rfl, rfl⟩ <;>
          simp [readFrom, Tail.place, Place.step, hb] at h
    · rintro ⟨b', rest', hls, hb, h⟩
      obtain ⟨rfl, rfl⟩ := List.cons.inj hls
      rwa [hstep hb]

theorem groupBy_iff :
    readTail 1 st ls = .ok s ↔ ∃ g h w rest, ls = w ++ rest ∧ Layout.GroupBy g h w ∧
      readTail 2 { st with groupBy := st.groupBy ++ g, having := h.or st.having } rest =
        .ok s := by
  have hhaving : ∀ {st : Statement Fragment} {f rest}, afterExpr .having ⟨st, f⟩ rest =
      readTail 2 { st with having := some f } rest :=
    afterExpr_eq_readTail (by decide) fun _ _ => rfl
  rw [show 1 = Tail.group.rank from rfl, readTail_rank_iff, show Tail.group.rank + 1 = 2 from rfl]
  simp only [readFrom_by_iff (.inl ⟨rfl, rfl⟩), readFrom_groupTerms_iff]
  constructor
  · rintro (h | ⟨l, _, rfl, ht, b, _, rfl, hb, fs, al, rest, rfl, hfs, h | ⟨k, rest, rfl, hk, h⟩⟩)
    · exact ⟨[], none, [], ls, rfl, .none, by simpa using h⟩
    · exact ⟨fs, none, l :: b :: al, rest, rfl, .some ht hb hfs, h⟩
    · obtain ⟨f, es, rest, rfl, hf, h⟩ := readFrom_exprStart_iff.mp h
      rw [hhaving] at h
      exact ⟨fs, some f, l :: b :: (al ++ k :: es), rest, by simp, .having ht hb hfs hk hf, h⟩
  · rintro ⟨g, h, w, rest, rfl, hw, h⟩
    cases hw with
    | none => exact .inl (by simpa using h)
    | some ht hb hfs => exact .inr ⟨_, _, rfl, ht, _, _, rfl, hb, _, _, _, rfl, hfs, .inl h⟩
    | having ht hb hfs hk hf =>
      refine .inr ⟨_, _, rfl, ht, _, _, rfl, hb, _, _, _, List.append_assoc _ _ _, hfs,
        .inr ⟨_, _, rfl, hk, readFrom_exprStart_iff.mpr ⟨_, _, _, rfl, hf, ?_⟩⟩⟩
      rw [hhaving]
      exact h

/-- The end of a term of ORDER BY, where its direction has been read or is left out. -/
theorem readFrom_orderEnd_iff :
    readFrom .orderEnd ⟨st, f⟩ ls = .ok s ↔
      CommaOr (fun rest => readTail 3 (st.put f .orderTerm) rest = .ok s)
        (fun rest => readFrom (.exprStart .orderTerm) ⟨st.put f .orderTerm, []⟩ rest = .ok s)
        ls := by
  have htail : (∀ l ∈ ls.head?, l.token ≠ .symbol .comma) →
      readFrom .orderEnd ⟨st, f⟩ ls = readTail 3 (st.put f .orderTerm) ls := by
    intro hl
    cases ls with
    | nil => rfl
    | cons l rest =>
      rw [readFrom, readTail, Place.step, if_neg (hl l rfl), tailStep_ended]
      cases h : tailStep 3 none l.token with
      | error e => rfl
      | ok step =>
        obtain ⟨c, -, -, rfl⟩ := tailStep_eq_ok_iff.mp h
        rfl
  constructor
  · intro h
    by_cases hl : ∀ l ∈ ls.head?, l.token ≠ .symbol .comma
    · rw [htail hl] at h
      exact .inl h
    · cases ls with
      | nil => exact absurd (by simp) hl
      | cons l rest =>
        have hcomma : l.token = .symbol .comma := by simpa using hl
        rw [readFrom, hcomma] at h
        exact .inr ⟨l, rest, rfl, hcomma, h⟩
  · rintro (h | ⟨l, rest, rfl, ht, h⟩)
    · rw [htail]
      · exact h
      · intro l hl
        obtain ⟨c, ht⟩ := head_of_readTail h l hl
        rw [ht]
        simp
    · rw [readFrom, ht]
      exact h

theorem afterExpr_orderTerm_iff :
    afterExpr .orderTerm ⟨st, f⟩ ls = .ok s ↔ readFrom .orderEnd ⟨st, f⟩ ls = .ok s ∨
      ∃ (l : Lexeme) (rest : List Lexeme), ls = l :: rest ∧
        (l.token = .keyword .asc ∨ l.token = .keyword .desc) ∧
        readFrom .orderEnd ⟨st, f ++ [⟨l.token, l.text, false⟩]⟩ rest = .ok s := by
  cases ls with
  | nil => simp [afterExpr, readFrom, Place.finish, Clause.slot]
  | cons l rest =>
    by_cases hl : l.token = .keyword .asc ∨ l.token = .keyword .desc
    · have hend : readFrom .orderEnd ⟨st, f⟩ (l :: rest) ≠ .ok s := by
        rcases hl with hl | hl <;> simp [readFrom, Place.step, hl, tailStep]
      have hafter : afterExpr .orderTerm ⟨st, f⟩ (l :: rest) =
          readFrom .orderEnd ⟨st, f ++ [⟨l.token, l.text, false⟩]⟩ rest := by
        rcases hl with hl | hl <;> rw [afterExpr, hl] <;> simp [Clause.endStep, Draft.close,
          Draft.act, hl]
      rw [hafter]
      constructor
      · exact fun h => .inr ⟨l, rest, rfl, hl, h⟩
      · rintro (h | ⟨l', rest', hls, -, h⟩)
        · exact absurd h hend
        · obtain ⟨rfl, rfl⟩ := List.cons.inj hls
          exact h
    · have hend : Clause.endStep .orderTerm l.token = Place.step .orderEnd l.token none := by
        rw [Place.step]
        unfold Clause.endStep
        split <;> simp_all
      have hafter : afterExpr .orderTerm ⟨st, f⟩ (l :: rest) =
          readFrom .orderEnd ⟨st, f⟩ (l :: rest) := by
        rw [afterExpr, readFrom, hend]
        rfl
      rw [hafter]
      constructor
      · exact .inl
      · rintro (h | ⟨l', rest', hls, hl', -⟩)
        · exact h
        · obtain ⟨rfl, rfl⟩ := List.cons.inj hls
          exact absurd hl' hl

theorem readFrom_orderTerm_iff :
    readFrom (.exprStart .orderTerm) ⟨st, []⟩ ls = .ok s ↔
      ∃ f fl rest, ls = fl ++ rest ∧ Layout.OrderTerm f fl ∧
        readFrom .orderEnd ⟨st, f⟩ rest = .ok s := by
  rw [readFrom_exprStart_iff]
  simp only [afterExpr_orderTerm_iff]
  constructor
  · rintro ⟨f, es, rest, rfl, hf, h | ⟨l, rest, rfl, hl, h⟩⟩
    · exact ⟨f, es, rest, rfl, .plain hf, h⟩
    · exact ⟨_, es ++ [l], rest, by simp, .directed hf hl, h⟩
  · rintro ⟨f, fl, rest, rfl, hf, h⟩
    cases hf with
    | plain hf => exact ⟨_, _, _, rfl, hf, .inl h⟩
    | directed hf hl => exact ⟨_, _, _, List.append_assoc _ _ _, hf, .inr ⟨_, _, rfl, hl, h⟩⟩

/-- The terms of ORDER BY add up. -/
theorem foldl_put_orderTerm (fs : List Fragment) :
    ∀ st : Statement Fragment,
      fs.foldl (fun st f => st.put f .orderTerm) st = { st with orderBy := st.orderBy ++ fs } := by
  induction fs with
  | nil => intro st; simp
  | cons f fs ih => intro st; rw [List.foldl_cons, ih]; simp [Statement.put]

theorem orderBy_iff :
    readTail 2 st ls = .ok s ↔ ∃ o w rest, ls = w ++ rest ∧ Layout.OrderBy o w ∧
      readTail 3 { st with orderBy := st.orderBy ++ o } rest = .ok s := by
  have hterms : ∀ {ls}, readFrom (.exprStart .orderTerm) ⟨st, []⟩ ls = .ok s ↔
      ∃ fs al rest, ls = al ++ rest ∧ Layout.Separated Layout.OrderTerm fs al ∧
        readTail 3 { st with orderBy := st.orderBy ++ fs } rest = .ok s := by
    intro ls
    have hlist := separated_iff (R := Layout.OrderTerm)
      (fun (st : Statement Fragment) f => st.put f .orderTerm)
      (fun st ls => readFrom (.exprStart .orderTerm) ⟨st, []⟩ ls = .ok s)
      (fun st ls => readTail 3 st ls = .ok s)
      (by intro st ls; rw [readFrom_orderTerm_iff]; simp only [readFrom_orderEnd_iff]) st ls
    simp only [foldl_put_orderTerm] at hlist
    exact hlist
  rw [show 2 = Tail.order.rank from rfl, readTail_rank_iff, show Tail.order.rank + 1 = 3 from rfl]
  simp only [readFrom_by_iff (.inr ⟨rfl, rfl⟩), hterms]
  constructor
  · rintro (h | ⟨l, _, rfl, ht, b, _, rfl, hb, fs, al, rest, rfl, hfs, h⟩)
    · exact ⟨[], [], ls, rfl, .none, by simpa using h⟩
    · exact ⟨fs, l :: b :: al, rest, rfl, .some ht hb hfs, h⟩
  · rintro ⟨o, w, rest, rfl, hw, h⟩
    cases hw with
    | none => exact .inl (by simpa using h)
    | some ht hb hfs => exact .inr ⟨_, _, rfl, ht, _, _, rfl, hb, _, _, _, rfl, hfs, h⟩

/-- Nothing follows the last number. -/
theorem afterExpr_last_iff {c : Clause} (hc : c = .count ∨ c = .offset) :
    afterExpr c ⟨st, f⟩ ls = .ok s ↔ ls = [] ∧ st.put f c.slot = s := by
  cases ls with
  | nil => rcases hc with rfl | rfl <;> simp [afterExpr, Draft.close]
  | cons l rest => rcases hc with rfl | rfl <;> simp [afterExpr, Clause.endStep]

theorem afterExpr_limit_iff :
    afterExpr .limit ⟨st, f⟩ ls = .ok s ↔ ls = [] ∧ { st with limit := some f } = s ∨
      (∃ (o : Lexeme) (rest : List Lexeme), ls = o :: rest ∧ o.token = .keyword .offset ∧
        readFrom (.exprStart .offset) ⟨{ st with limit := some f }, []⟩ rest = .ok s) ∨
      ∃ (c : Lexeme) (rest : List Lexeme), ls = c :: rest ∧ c.token = .symbol .comma ∧
        readFrom (.exprStart .count) ⟨{ st with offset := some f }, []⟩ rest = .ok s := by
  cases ls with
  | nil => simp [afterExpr, Draft.close, Statement.put, Clause.slot]
  | cons l rest =>
    constructor
    · intro h
      rw [afterExpr] at h
      by_cases ho : l.token = .keyword .offset
      · rw [ho] at h
        exact .inr (.inl ⟨l, rest, rfl, ho, h⟩)
      · by_cases hc : l.token = .symbol .comma
        · rw [hc] at h
          exact .inr (.inr ⟨l, rest, rfl, hc, h⟩)
        · unfold Clause.endStep at h
          split at h <;> simp_all
    · rintro (⟨h, -⟩ | ⟨l', rest', hls, ht, h⟩ | ⟨l', rest', hls, ht, h⟩)
      · cases h
      · obtain ⟨rfl, rfl⟩ := List.cons.inj hls
        rw [afterExpr, ht]
        exact h
      · obtain ⟨rfl, rfl⟩ := List.cons.inj hls
        rw [afterExpr, ht]
        exact h

theorem limit_iff :
    readTail 3 st ls = .ok s ↔ ∃ n k, Layout.Limit n k ls ∧
      { st with limit := n.or st.limit, offset := k.or st.offset } = s := by
  rw [show 3 = Tail.limit.rank from rfl, readTail_rank_iff, show Tail.limit.rank + 1 = 4 from rfl,
    readTail_four_iff]
  simp only [Tail.place, readFrom_exprStart_iff, afterExpr_limit_iff,
    afterExpr_last_iff (.inl rfl), afterExpr_last_iff (.inr rfl)]
  constructor
  · rintro (⟨rfl, h⟩ | ⟨l, _, rfl, ht, f, es, rest, rfl, hf, ⟨rfl, h⟩ |
      ⟨o, _, rfl, ho, g, gs, _, rfl, hg, rfl, h⟩ | ⟨c, _, rfl, hc, g, gs, _, rfl, hg, rfl, h⟩⟩)
    · exact ⟨none, none, .none, h⟩
    · exact ⟨some f, none, by rw [List.append_nil]; exact .some ht hf, h⟩
    · exact ⟨some f, some g, by rw [List.append_nil]; exact .offset ht hf ho hg, h⟩
    · exact ⟨some g, some f, by rw [List.append_nil]; exact .comma ht hf hc hg, h⟩
  · rintro ⟨n, k, hlimit, h⟩
    cases hlimit with
    | none => exact .inl ⟨rfl, h⟩
    | some ht hf =>
      exact .inr ⟨_, _, rfl, ht, _, _, _, (List.append_nil _).symm, hf, .inl ⟨rfl, h⟩⟩
    | offset ht hf ho hg =>
      exact .inr ⟨_, _, rfl, ht, _, _, _, rfl, hf, .inr (.inl ⟨_, _, rfl, ho, _, _, _,
        (List.append_nil _).symm, hg, rfl, h⟩)⟩
    | comma ht hf hc hg =>
      exact .inr ⟨_, _, rfl, ht, _, _, _, rfl, hf, .inr (.inr ⟨_, _, rfl, hc, _, _, _,
        (List.append_nil _).symm, hg, rfl, h⟩)⟩

/-! ## Columns and what stands before them -/

/-- FROM, and the clauses after it. -/
def AfterColumns (s st : Statement Fragment) (ls : List Lexeme) : Prop :=
  ∃ (src : Lexeme) (path : String) (rest : List Lexeme), ls = src :: rest ∧
    src.token = .source path ∧ readTail 0 { st with path := path } rest = .ok s

theorem readFrom_columnEnd_iff :
    readFrom .columnEnd ⟨st, []⟩ ls = .ok s ↔
      CommaOr (AfterColumns s st) (fun rest => readFrom .column ⟨st, []⟩ rest = .ok s) ls := by
  cases ls with
  | nil => simp [readFrom, Place.finish, CommaOr, AfterColumns]
  | cons l rest =>
    constructor
    · intro h
      rw [readFrom] at h
      cases ht : l.token with
      | source path =>
        rw [ht] at h
        exact .inl ⟨l, path, rest, rfl, ht, readFrom_sourceEnd ▸ h⟩
      | symbol x =>
        by_cases hx : x = .comma
        · subst hx
          rw [ht] at h
          exact .inr ⟨l, rest, rfl, ht, h⟩
        · rw [ht] at h
          simp [Place.step, hx] at h
      | _ => rw [ht] at h; cases h
    · rintro (⟨src, path, rest', hls, hsource, h⟩ | ⟨c, rest', hls, hcomma, h⟩)
      · obtain ⟨rfl, rfl⟩ := List.cons.inj hls
        rw [readFrom, hsource]
        exact readFrom_sourceEnd.trans h
      · obtain ⟨rfl, rfl⟩ := List.cons.inj hls
        rw [readFrom, hcomma]
        exact h

/-- The statement with one more column. -/
def Statement.addColumn (st : Statement Fragment) (c : Column Fragment) : Statement Fragment :=
  { st with columns := st.columns ++ [c] }

theorem Statement.aliasLast_put (st : Statement Fragment) (f : Fragment) (name : String) :
    (st.put f .column).aliasLast name = st.addColumn (.expr f (some name)) := by
  simp [Statement.put, Statement.aliasLast, Statement.addColumn]

theorem readFrom_alias_iff :
    readFrom .alias ⟨st.put f .column, []⟩ ls = .ok s ↔
      ∃ (n : Lexeme) (rest : List Lexeme), ls = n :: rest ∧ isNaming n.token ∧
        readFrom .columnEnd ⟨st.addColumn (.expr f (some (Layout.nameOf n))), []⟩ rest = .ok s := by
  cases ls with
  | nil => simp [readFrom, Place.finish]
  | cons n rest =>
    rw [readFrom, Place.step, isName_eq_isNaming]
    by_cases hn : isNaming n.token
    · rw [if_pos hn]
      simp only [← Statement.aliasLast_put]
      constructor
      · exact fun h => ⟨n, rest, rfl, hn, h⟩
      · rintro ⟨n', rest', hls, -, h⟩
        obtain ⟨rfl, rfl⟩ := List.cons.inj hls
        exact h
    · rw [if_neg hn]
      simp [hn]

theorem afterExpr_column_iff :
    afterExpr .column ⟨st, f⟩ ls = .ok s ↔
      readFrom .columnEnd ⟨st.addColumn (.expr f none), []⟩ ls = .ok s ∨
      (∃ (n : Lexeme) (rest : List Lexeme), ls = n :: rest ∧ n.token = .ident ∧
        readFrom .columnEnd ⟨st.addColumn (.expr f (some (Layout.nameOf n))), []⟩ rest = .ok s) ∨
      ∃ (a n : Lexeme) (rest : List Lexeme), ls = a :: n :: rest ∧ a.token = .keyword .as_ ∧
        isNaming n.token ∧
        readFrom .columnEnd ⟨st.addColumn (.expr f (some (Layout.nameOf n))), []⟩ rest = .ok s := by
  cases ls with
  | nil => simp [afterExpr, readFrom, Place.finish]
  | cons l rest =>
    constructor
    · intro h
      rw [afterExpr] at h
      by_cases hident : l.token = .ident
      · rw [hident] at h
        refine .inr (.inl ⟨l, rest, rfl, hident, ?_⟩)
        rw [← Statement.aliasLast_put]
        exact h
      · by_cases has : l.token = .keyword .as_
        · rw [has] at h
          obtain ⟨n, rest, rfl, hn, h⟩ := readFrom_alias_iff.mp h
          exact .inr (.inr ⟨l, n, rest, rfl, has, hn, h⟩)
        · refine .inl (readFrom_columnEnd_iff.mpr ?_)
          cases ht : l.token with
          | source path =>
            rw [ht] at h
            exact .inl ⟨l, path, rest, rfl, ht, readFrom_sourceEnd ▸ h⟩
          | symbol x =>
            by_cases hx : x = .comma
            · subst hx
              rw [ht] at h
              exact .inr ⟨l, rest, rfl, ht, h⟩
            · simp [ht, Clause.endStep, hx] at h
          | keyword k =>
            have hk : k ≠ .as_ := fun hk => has (ht.trans (congrArg _ hk))
            simp [ht, Clause.endStep, hk] at h
          | ident => exact absurd ht hident
          | _ => rw [ht] at h; cases h
    · rintro (h | ⟨n, rest', hls, hn, h⟩ | ⟨a, n, rest', hls, ha, hn, h⟩)
      · rcases readFrom_columnEnd_iff.mp h with ⟨src, path, rest', hls, hsource, h'⟩ |
          ⟨c, rest', hls, hcomma, h'⟩
        · obtain ⟨rfl, rfl⟩ := List.cons.inj hls
          rw [afterExpr, hsource]
          exact readFrom_sourceEnd.trans h'
        · obtain ⟨rfl, rfl⟩ := List.cons.inj hls
          rw [afterExpr, hcomma]
          exact h'
      · obtain ⟨rfl, rfl⟩ := List.cons.inj hls
        rw [← Statement.aliasLast_put] at h
        rw [afterExpr, hn]
        exact h
      · obtain ⟨rfl, rfl⟩ := List.cons.inj hls
        rw [afterExpr, ha]
        exact readFrom_alias_iff.mpr ⟨n, rest', rfl, hn, h⟩

theorem readFrom_column_eq (hl : ∀ l ∈ ls.head?, l.token ≠ .symbol .star) :
    readFrom .column ⟨st, []⟩ ls = readFrom (.exprStart .column) ⟨st, []⟩ ls := by
  cases ls with
  | nil => rfl
  | cons l rest =>
    rw [readFrom, readFrom, Place.step, columnStep, if_neg (hl l rfl)]
    rfl

theorem readFrom_column_iff :
    readFrom .column ⟨st, []⟩ ls = .ok s ↔ ∃ c cl rest, ls = cl ++ rest ∧ Layout.Column c cl ∧
      CommaOr (AfterColumns s (st.addColumn c))
        (fun rest => readFrom .column ⟨st.addColumn c, []⟩ rest = .ok s) rest := by
  simp only [← readFrom_columnEnd_iff]
  constructor
  · intro h
    by_cases hl : ∀ l ∈ ls.head?, l.token ≠ .symbol .star
    · rw [readFrom_column_eq hl] at h
      obtain ⟨f, es, rest, rfl, hf, h⟩ := readFrom_exprStart_iff.mp h
      rcases afterExpr_column_iff.mp h with h | ⟨n, rest, rfl, hn, h⟩ |
        ⟨a, n, rest, rfl, ha, hn, h⟩
      · exact ⟨_, es, rest, rfl, .expr hf, h⟩
      · exact ⟨_, es ++ [n], rest, by simp, .named hf hn, h⟩
      · exact ⟨_, es ++ [a, n], rest, by simp, .aliased hf ha hn, h⟩
    · cases ls with
      | nil => exact absurd (by simp) hl
      | cons l rest =>
        have hstar : l.token = .symbol .star := by simpa using hl
        rw [readFrom, hstar] at h
        exact ⟨.wildcard, [l], rest, rfl, .wildcard hstar, h⟩
  · rintro ⟨c, cl, rest, rfl, hc, h⟩
    have hexpr : ∀ {f es rest}, Layout.Expr f es → afterExpr .column ⟨st, f⟩ rest = .ok s →
        readFrom .column ⟨st, []⟩ (es ++ rest) = .ok s := by
      intro f es rest hf h
      have hread := readFrom_exprStart_iff.mpr ⟨f, es, rest, rfl, hf, h⟩
      rwa [readFrom_column_eq]
      intro l hl hstar
      cases hls : es ++ rest with
      | nil => rw [hls] at hl; cases hl
      | cons l' rest' =>
        rw [hls] at hl hread
        obtain rfl := Option.some.inj hl
        rw [readFrom, hstar] at hread
        cases hread
    cases hc with
    | wildcard hstar =>
      rw [List.singleton_append, readFrom, hstar]
      exact h
    | expr hf => exact hexpr hf (afterExpr_column_iff.mpr (.inl h))
    | aliased hf ha hn =>
      rw [List.append_assoc]
      exact hexpr hf (afterExpr_column_iff.mpr (.inr (.inr ⟨_, _, rest, rfl, ha, hn, h⟩)))
    | named hf hn =>
      rw [List.append_assoc]
      exact hexpr hf (afterExpr_column_iff.mpr (.inr (.inl ⟨_, rest, rfl, hn, h⟩)))

/-- The columns add up. -/
theorem foldl_addColumn (cs : List (Column Fragment)) :
    ∀ st : Statement Fragment,
      cs.foldl Statement.addColumn st = { st with columns := st.columns ++ cs } := by
  induction cs with
  | nil => intro st; simp
  | cons c cs ih => intro st; rw [List.foldl_cons, ih]; simp [Statement.addColumn]

theorem readFrom_columns_iff :
    readFrom .column ⟨st, []⟩ ls = .ok s ↔
      ∃ cs cl rest, ls = cl ++ rest ∧ Layout.Separated Layout.Column cs cl ∧
        AfterColumns s { st with columns := st.columns ++ cs } rest := by
  have hlist := separated_iff (R := Layout.Column) Statement.addColumn
    (fun st ls => readFrom .column ⟨st, []⟩ ls = .ok s) (AfterColumns s)
    (fun _ _ => readFrom_column_iff) st ls
  simp only [foldl_addColumn] at hlist
  exact hlist

theorem readFrom_quantifier_eq
    (hl : ∀ l ∈ ls.head?, l.token ≠ .keyword .distinct ∧ l.token ≠ .keyword .all) :
    readFrom .quantifier ⟨st, []⟩ ls = readFrom .column ⟨st, []⟩ ls := by
  cases ls with
  | nil => rfl
  | cons l rest =>
    obtain ⟨hdistinct, hall⟩ := hl l rfl
    rw [readFrom, readFrom, Place.step, if_neg hdistinct, if_neg hall]
    rfl

theorem readFrom_quantifier_iff :
    readFrom .quantifier ⟨st, []⟩ ls = .ok s ↔
      ∃ d q rest, ls = q ++ rest ∧ Layout.Quantifier d q ∧
        readFrom .column ⟨{ st with distinct := d || st.distinct }, []⟩ rest = .ok s := by
  constructor
  · intro h
    by_cases hl : ∀ l ∈ ls.head?, l.token ≠ .keyword .distinct ∧ l.token ≠ .keyword .all
    · rw [readFrom_quantifier_eq hl] at h
      exact ⟨false, [], ls, rfl, .none, h⟩
    · cases ls with
      | nil => exact absurd (by simp) hl
      | cons l rest =>
        by_cases hdistinct : l.token = .keyword .distinct
        · rw [readFrom, hdistinct] at h
          exact ⟨true, [l], rest, rfl, .distinct hdistinct, h⟩
        · have hall : l.token = .keyword .all := by simpa [hdistinct] using hl
          rw [readFrom, hall] at h
          exact ⟨false, [l], rest, rfl, .all hall, h⟩
  · rintro ⟨d, q, rest, rfl, hq, h⟩
    cases hq with
    | none =>
      rw [List.nil_append, readFrom_quantifier_eq]
      · exact h
      · intro l hl
        cases rest with
        | nil => cases hl
        | cons l' rest =>
          obtain rfl := Option.some.inj hl
          constructor <;> intro ht <;> rw [readFrom, ht] at h <;> cases h
    | distinct ht =>
      rw [List.singleton_append, readFrom, ht]
      exact h
    | all ht =>
      rw [List.singleton_append, readFrom, ht]
      exact h

theorem ofLexemes_eq_ok_iff_select :
    Statement.ofLexemes ls = .ok s ↔ ∃ (l : Lexeme) (rest : List Lexeme), ls = l :: rest ∧
      l.token = .keyword .select ∧ readFrom .quantifier ⟨{}, []⟩ rest = .ok s := by
  cases ls with
  | nil => simp [Statement.ofLexemes]
  | cons l rest =>
    rw [Statement.ofLexemes, List.isEmpty_cons, if_neg (by simp), readFrom, Place.step]
    by_cases hl : l.token = .keyword .select
    · rw [if_pos hl]
      constructor
      · exact fun h => ⟨l, rest, rfl, hl, h⟩
      · rintro ⟨l', rest', hls, -, h⟩
        obtain ⟨rfl, rfl⟩ := List.cons.inj hls
        exact h
    · rw [if_neg hl]
      simp [hl]

end Clauses

/-- **Lexemes are read as a statement** iff they are laid out as that statement. -/
theorem ofLexemes_eq_ok_iff {ls : List Lexeme} {s : Statement Fragment} :
    Statement.ofLexemes ls = .ok s ↔ Layout s ls := by
  rw [ofLexemes_eq_ok_iff_select]
  constructor
  · rintro ⟨l, _, rfl, hl, h⟩
    obtain ⟨d, q, _, rfl, hq, h⟩ := readFrom_quantifier_iff.mp h
    obtain ⟨cs, cl, _, rfl, hcs, src, path, _, rfl, hsource, h⟩ := readFrom_columns_iff.mp h
    obtain ⟨p, w, _, rfl, hw, h⟩ := where_iff.mp h
    obtain ⟨g, k, gl, _, rfl, hg, h⟩ := groupBy_iff.mp h
    obtain ⟨o, ol, _, rfl, ho, h⟩ := orderBy_iff.mp h
    obtain ⟨n, m, hlimit, h⟩ := limit_iff.mp h
    have hlayout := Layout.select hl hq hcs hsource hw hg ho hlimit
    simpa [← h] using hlayout
  · rintro ⟨hl, hq, hcs, hsource, hw, hg, ho, hlimit⟩
    refine ⟨_, _, rfl, hl, readFrom_quantifier_iff.mpr ⟨_, _, _, rfl, hq, ?_⟩⟩
    refine readFrom_columns_iff.mpr ⟨_, _, _, rfl, hcs, _, _, _, rfl, hsource, ?_⟩
    refine where_iff.mpr ⟨_, _, _, rfl, hw, groupBy_iff.mpr ⟨_, _, _, _, rfl, hg, ?_⟩⟩
    refine orderBy_iff.mpr ⟨_, _, _, rfl, ho, limit_iff.mpr ⟨_, _, hlimit, ?_⟩⟩
    simp

end TreeQuery.Query
