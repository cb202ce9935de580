import TreeQuery.Proofs.Query.Acceptance
import TreeQuery.Proofs.Query.Completion
import TreeQuery.Proofs.Query.Gaps

/-!
# Expressions compose under operators

`IsColumn e` says that the text `e` can stand as a column: `SELECT e FROM .` is a statement whose
only column is the expression `e`, without an alias. `Composes e f` lists the columns that can be
made of two such texts with one more operator.

Every operator takes every operand, with one exception. A sign takes no operand that starts with
NOT: `- NOT a` is no column, though `NOT a` is one, and `b || NOT a` and `NOT - a` are.

The operand of a sign and the right operand of an operator may themselves hold looser operators. A
derivation of such an operand is kept, and what stands in front is put in front of its first
operand (`Derives.prepend`): `- a OR b` derives as `(- a) OR b`.

Result: **`isColumn_composes`**.
-/

namespace TreeQuery.Query

open Grammar

/-! ## Tokens -/

/-- **What stands in front of the first operand** of an expression. NOT may only come first if the
tokens in front admit it. -/
theorem Grammar.Derives.prepend (pre : List Token) (negates : Prop) {p : Nat}
    (hunary : ∀ {w}, Derives .unary w → Derives (.expr p) (pre ++ w))
    (hnot : ∀ {w}, negates → Derives (.expr 3) w → Derives (.expr p) (pre ++ .keyword .not_ :: w))
    {w : List Token} (h : Derives (.expr p) w) (hw : w.head? = some (.keyword .not_) → negates) :
    Derives (.expr p) (pre ++ w) := by
  generalize hA : Nonterminal.expr p = A at h
  -- in front of an operator stands a left operand of the same level, and with it the first token
  have hleft : ∀ {u v : List Token}, ((u ++ v).head? = some (.keyword .not_) → negates) →
      u.head? = some (.keyword .not_) → negates := by
    intro u v hw hu
    refine hw ?_
    rw [List.head?_append, hu]
    rfl
  induction h with
  | not hv =>
    cases hA
    exact hnot (hw rfl) hv
  | unary hv =>
    cases hA
    exact hunary hv
  | binary _ ht hpq hv ih =>
    cases hA
    rw [← List.append_assoc]
    exact .binary (ih (hleft hw) rfl) ht hpq hv
  | is_ hp _ hn hv ih =>
    cases hA
    rw [← List.append_assoc]
    exact .is_ hp (ih (hleft hw) rfl) hn hv
  | inEmpty hp _ hn ih =>
    cases hA
    rw [← List.append_assoc]
    exact .inEmpty hp (ih (hleft hw) rfl) hn
  | inList hp _ hn hv ih =>
    cases hA
    rw [← List.append_assoc]
    exact .inList hp (ih (hleft hw) rfl) hn hv
  | between hp _ hn hv hx ih =>
    cases hA
    rw [← List.append_assoc]
    exact .between hp (ih (hleft hw) rfl) hn hv hx
  | like hp _ hn hk hv ih =>
    cases hA
    rw [← List.append_assoc]
    exact .like hp (ih (hleft hw) rfl) hn hk hv
  | likeEscape hp _ hn hk hv hx ih =>
    cases hA
    rw [← List.append_assoc]
    exact .likeEscape hp (ih (hleft hw) rfl) hn hk hv hx
  | isNull hp _ ih =>
    cases hA
    rw [← List.append_assoc]
    exact .isNull hp (ih (hleft hw) rfl)
  | notNull hp _ ih =>
    cases hA
    rw [← List.append_assoc]
    exact .notNull hp (ih (hleft hw) rfl)
  | notNullApart hp _ ih =>
    cases hA
    rw [← List.append_assoc]
    exact .notNullApart hp (ih (hleft hw) rfl)
  | _ => cases hA

namespace Grammar.Expr

variable {u v w : List Token} {s op : Token} {q : Nat}

theorem not (h : Expr w) : Expr (.keyword .not_ :: w) :=
  Derives.prepend [.keyword .not_] True
    (fun hw => .not (.unary hw)) (fun _ hw => .not (.not hw)) h fun _ => trivial

/-- A sign in front of an expression that does not start with NOT. -/
theorem sign (hs : isSign s) (h : Expr w) (hw : w.head? ≠ some (.keyword .not_)) :
    Expr (s :: w) := by
  refine Derives.prepend [s] False ?_ (fun h => h.elim) h hw
  intro w hw
  have hsign := Derives.sign hs hw .noCollation
  rw [List.append_nil] at hsign
  exact .unary hsign

theorem group (h : Expr w) : Expr (.symbol .openParen :: (w ++ [.symbol .closeParen])) := by
  have hgroup := Derives.primary (.group (.single h)) .noCollation
  rw [List.append_nil] at hgroup
  exact .unary hgroup

theorem binary (hu : Expr u) (hop : binaryLevel op = some q) (hv : Expr v) :
    Expr (u ++ op :: v) := by
  have hq : 1 ≤ q := by
    have hzero : q ≠ 0 := by
      rintro rfl
      cases op with
      | keyword k => cases k <;> cases hop
      | symbol s => cases s <;> cases hop
      | _ => cases hop
    omega
  have happend : ∀ {w}, Derives (.expr (q + 1)) w → Derives (.expr 1) (u ++ [op] ++ w) := by
    intro w hw
    rw [List.append_assoc]
    exact .binary hu hop hq hw
  rw [List.append_cons]
  exact Derives.prepend _ True (fun hw => happend (.unary hw))
    (fun _ hw => happend (.not hw)) hv fun _ => trivial

theorem is_ {n : List Token} (hu : Expr u) (hn : MaybeNot n) (hv : Expr v) :
    Expr (u ++ .keyword .is_ :: (n ++ v)) := by
  have happend : ∀ {w}, Derives (.expr 5) w →
      Derives (.expr 1) (u ++ .keyword .is_ :: n ++ w) := by
    intro w hw
    rw [List.append_assoc]
    exact .is_ (by decide) hu hn hw
  rw [← List.cons_append, ← List.append_assoc]
  exact Derives.prepend _ True (fun hw => happend (.unary hw))
    (fun _ hw => happend (.not hw)) hv fun _ => trivial

end Grammar.Expr

/-- A sign takes no operand that starts with NOT. -/
theorem not_expr_sign_not {s : Token} (hs : isSign s) (w : List Token) :
    ¬ Grammar.Expr (s :: .keyword .not_ :: w) := by
  intro h
  obtain ⟨m, X, -, -, hruns⟩ := Readable.inner (readable_of_derives h) []
  cases hruns.leads .column none with
  | step hsign hrest =>
    cases hrest with
    | step hnot _ =>
      have hstart : ∀ next, Place.step (.exprStart .column) s next =
          .ok ⟨none, .word true, .expr .column .signed [.operators 1]⟩ := by
        intro next
        cases s with
        | symbol x => cases x <;> first | rfl | cases hs
        | _ => cases hs
      obtain rfl := Except.ok.inj ((hstart _).symm.trans hsign)
      cases hnot

/-! ## Texts -/

/-- **A text that can stand as a column**: an expression without an alias, made of the words of
the text. -/
def IsColumn (e : String) : Prop :=
  ∃ s w ls, Statement.outline ("SELECT " ++ e ++ " FROM .") = .ok s ∧ s.columns = [.expr w none] ∧
    tokenize e = .ok ls ∧ w.Spells ls

/-- The first word of a text is NOT. -/
def StartsWithNot (e : String) : Prop :=
  ∃ l ls, tokenize e = .ok (l :: ls) ∧ l.token = .keyword .not_

/-- **The columns that can be made of two** with one more operator, which may be written in any of
its forms. -/
structure Composes (e f : String) : Prop where
  /-- `+ e`, `- e` and `~ e`. -/
  sign : ∀ {t : Token} {o : String}, isSign t → t.Written o.toList →
    (IsColumn (o ++ " " ++ e) ↔ ¬ StartsWithNot e)
  not : IsColumn ("NOT " ++ e)
  group : IsColumn ("( " ++ e ++ " )")
  is_ : IsColumn (e ++ " IS " ++ f)
  isNot : IsColumn (e ++ " IS NOT " ++ f)
  /-- The operators between two operands, from OR to `||`. -/
  binary : ∀ {t : Token} {q : Nat} {o : String}, binaryLevel t = some q → t.Written o.toList →
    IsColumn (e ++ " " ++ o ++ " " ++ f)

/-- The only column of a statement is an expression. -/
theorem Layout.isExpression_of_column {w : Fragment} {s : Statement Fragment} {ls : List Lexeme}
    (h : Layout s ls) (hs : s.columns = [.expr w none]) : w.IsExpression := by
  cases h with
  | select _ _ hcs _ _ _ _ _ =>
    cases hs
    cases hcs with
    | one hc =>
      cases hc with
      | expr hw => exact hw.1
    | more _ _ hcs => cases hcs

/-- **The columns are the texts of expressions.** -/
theorem isColumn_iff {e : String} : IsColumn e ↔ ∃ w, Tokens e.toList w ∧ Expr w := by
  constructor
  · rintro ⟨s, w, ls, houtline, hcolumns, hls, hspells⟩
    obtain ⟨all, -, hlayout⟩ := outline_eq_ok_iff.mp houtline
    refine ⟨_, Tokens.iff_tokenize.mpr ⟨ls, hls, rfl⟩, ?_⟩
    rw [← hspells.tokens]
    exact (hlayout.isExpression_of_column hcolumns).expr
  · rintro ⟨w, htokens, hexpr⟩
    obtain ⟨ls, hls, rfl⟩ := Tokens.iff_tokenize.mp htokens
    obtain ⟨f, hf, hspells⟩ := exists_isExpression hexpr
    have hselect : Token.Written (.keyword .select) "SELECT".toList := .keyword (by decide)
    have hsource : tokenize "FROM ." = .ok [⟨.source ".", 0, "FROM .".toList⟩] := by
      decide +kernel
    have hlexes := (Lexes.single hselect).append_gap (g := ' ') rfl
      ((exists_tokenize_iff.mp ⟨ls, hls, rfl⟩).append_gap (g := ' ') rfl
        (exists_tokenize_iff.mp ⟨_, hsource, rfl⟩))
    have htext : ("SELECT " ++ e ++ " FROM .").toList =
        "SELECT".toList ++ ' ' :: (e.toList ++ ' ' :: "FROM .".toList) := by
      simp
    rw [← htext, List.singleton_append] at hlexes
    obtain ⟨all, hall, hspelling⟩ := exists_tokenize_iff.mpr hlexes
    obtain ⟨l, rest, rfl, hl, hrest⟩ := List.map_eq_cons_iff.mp hspelling
    obtain ⟨es, src, rfl, hes, hsrc⟩ := List.map_eq_append_iff.mp hrest
    obtain ⟨l', tail, rfl, hl', htail⟩ := List.map_eq_cons_iff.mp hsrc
    obtain rfl := List.map_eq_nil_iff.mp htail
    have hlayout : Layout ⟨".", false, [.expr f none], none, [], none, [], none, none⟩
        (l :: ([] ++ (es ++ l' :: ([] ++ ([] ++ ([] ++ [])))))) :=
      .select (congrArg Prod.fst hl) .none (.one (.expr ⟨hf, hspells.trans hes.symm⟩))
        (congrArg Prod.fst hl') .none .none .none .none
    exact ⟨_, f, ls, outline_eq_ok_iff.mpr ⟨_, hall, hlayout⟩, rfl, hls, hspells⟩

theorem startsWithNot_iff {e : String} {w : List Token} (h : Tokens e.toList w) :
    StartsWithNot e ↔ w.head? = some (.keyword .not_) := by
  obtain ⟨ls, hls, rfl⟩ := Tokens.iff_tokenize.mp h
  constructor
  · rintro ⟨l, rest, hrest, hl⟩
    obtain rfl := Except.ok.inj (hls.symm.trans hrest)
    exact congrArg some hl
  · intro hhead
    cases ls with
    | nil => cases hhead
    | cons l rest => exact ⟨l, rest, hls, Option.some.inj hhead⟩

theorem IsColumn.of_expr {w : List Token} {e : String} {cs : List Char} (h : Expr w)
    (hcs : Tokens cs w) (he : e.toList = cs) : IsColumn e :=
  isColumn_iff.mpr ⟨w, he ▸ hcs, h⟩

/-- **Expressions compose under operators.** -/
theorem isColumn_composes {e f : String} (he : IsColumn e) (hf : IsColumn f) : Composes e f := by
  obtain ⟨u, hu, hue⟩ := isColumn_iff.mp he
  obtain ⟨v, hv, hvf⟩ := isColumn_iff.mp hf
  have hopen : Tokens ['('] [.symbol .openParen] := .single (.symbol .openParen)
  have hclose : Tokens [')'] [.symbol .closeParen] := .single (.symbol .closeParen)
  have hnot : Tokens "NOT".toList [.keyword .not_] := .single (.keyword (by decide))
  have his : Tokens "IS".toList [.keyword .is_] := .single (.keyword (by decide))
  constructor
  case sign =>
    intro t o ht ho
    have htext : (o ++ " " ++ e).toList = o.toList ++ ' ' :: e.toList := by simp
    have htokens : Tokens (o ++ " " ++ e).toList (t :: u) := by
      rw [htext]
      exact (Tokens.single ho).spaced hu
    rw [startsWithNot_iff hu]
    constructor
    · intro hcolumn hhead
      obtain ⟨w, hw, hexpr⟩ := isColumn_iff.mp hcolumn
      obtain rfl := htokens.unique hw
      obtain ⟨u', rfl⟩ := List.head?_eq_some_iff.mp hhead
      exact not_expr_sign_not ht u' hexpr
    · exact fun hhead => isColumn_iff.mpr ⟨_, htokens, hue.sign ht hhead⟩
  case not => exact .of_expr hue.not (hnot.spaced hu) (by simp)
  case group => exact .of_expr hue.group (hopen.spaced (hu.spaced hclose)) (by simp)
  case is_ => exact .of_expr (hue.is_ (.inl rfl) hvf) (hu.spaced (his.spaced hv)) (by simp)
  case isNot =>
    exact .of_expr (hue.is_ (.inr rfl) hvf) (hu.spaced (his.spaced (hnot.spaced hv))) (by simp)
  case binary =>
    intro t q o ht ho
    exact .of_expr (hue.binary ht hvf) (hu.spaced ((Tokens.single ho).spaced hv)) (by simp)

/-- NOT as an operand: it is negated again and compared, but takes no sign. -/
theorem isColumn_composes_negation :
    IsColumn "NOT a" ∧ IsColumn "b OR c" ∧ Composes "NOT a" "b OR c" ∧ ¬ IsColumn "- NOT a" := by
  have hleft : IsColumn "NOT a" :=
    ⟨{ path := ".",
       columns := [.expr [⟨.keyword .not_, "NOT".toList, true⟩, ⟨.ident, ['a'], false⟩] none] },
      _, [⟨.keyword .not_, 0, "NOT".toList⟩, ⟨.ident, 4, ['a']⟩], by decide +kernel, rfl,
      by decide +kernel, rfl⟩
  have hright : IsColumn "b OR c" :=
    ⟨{ path := ".",
       columns := [.expr [⟨.ident, ['b'], false⟩, ⟨.keyword .or_, "OR".toList, false⟩,
         ⟨.ident, ['c'], false⟩] none] },
      _, [⟨.ident, 0, ['b']⟩, ⟨.keyword .or_, 2, "OR".toList⟩, ⟨.ident, 5, ['c']⟩],
      by decide +kernel, rfl, by decide +kernel, rfl⟩
  have hcomposes : Composes "NOT a" "b OR c" := isColumn_composes hleft hright
  refine ⟨hleft, hright, hcomposes, fun hsigned => ?_⟩
  have htext : "-" ++ " " ++ "NOT a" = "- NOT a" := by decide
  rw [← htext] at hsigned
  refine (hcomposes.sign (t := .symbol .minus) (o := "-") rfl (.symbol .minus)).mp hsigned ?_
  exact ⟨⟨.keyword .not_, 0, "NOT".toList⟩, [⟨.ident, 4, ['a']⟩], by decide +kernel, rfl⟩

end TreeQuery.Query
