import TreeQuery.Proofs.Query.DescentCalls
import TreeQuery.Proofs.Query.Spans

/-!
# The descent answers as the automaton

Between the clauses of a statement the automaton `Agrees` with the descent as well. What it makes of
the lexemes after a complete expression is `Input.after`, and once the clauses of lower rank are
read it is `Input.tail`. From there on a theorem for each part of a statement leads to the next.

Results:
* `agrees_statement`: the automaton agrees with the reading of a statement, so that this never
  crashes where the lexemes are pieces of the text (`Input.Faithful`).
* `descent_progresses`: the descent ends on all lexemes and does not leave them, and it answers
  every text as the automaton does.
-/

namespace TreeQuery.Query.Descent

open Grammar (isNaming)

variable {α : Type} {p : Input} {s t : Cursor} {i j : Nat} {st : Statement Fragment}
  {d : Draft} {x : Token}

/-! ## Fragments -/

/-- What the automaton makes of the lexemes after a complete expression of a clause. -/
def Input.after (p : Input) (c : Clause) (d : Draft) (i : Nat) :
    Except String (Statement Fragment) :=
  (afterExpr c d (p.lexemes.drop i)).mapError SyntaxError.message

theorem outcome_end (c : Clause) (d : Draft) (i : Nat) :
    p.outcome (Spot.within (.end_, []) c) d i = p.after c d i := by
  rw [Input.outcome, Input.after]
  cases p.lexemes.drop i with
  | nil => cases c <;> rfl
  | cons l rest => rfl

theorem wordAt_eq (hp : p.Faithful) (unary : List Nat) (hi : i < p.lexemes.length) :
    ∃ w, p.wordAt unary i = .ok w ∧ p.wordAt? unary i = some w := by
  have hl : p.lexemes[i]? = some p.lexemes[i] := List.getElem?_eq_getElem hi
  have htext : p.textOf p.lexemes[i] = .ok p.lexemes[i].text := by
    rw [Input.textOf, hp.cut _ (List.getElem_mem hi)]
  refine ⟨⟨p.lexemes[i].token, p.lexemes[i].text, unary.contains i⟩, ?_, ?_⟩
  · rw [Input.wordAt, hl]
    simp only [htext]
    rfl
  · rw [Input.wordAt?, hl]
    rfl

theorem exec_render (hp : p.Faithful) (hj : j ≤ p.lexemes.length) :
    exec (render p i j) s = some (.ok (p.words s.unary i j),
      { s with rendered := s.rendered ++ [(i, j)] }) := by
  have hwords : (List.range' i (j - i)).mapM (p.wordAt s.unary) = .ok (p.words s.unary i j) := by
    have hbound : ∀ k ∈ List.range' i (j - i), k < p.lexemes.length := by
      intro k hk
      rw [List.mem_range'_1] at hk
      omega
    rw [Input.words]
    generalize List.range' i (j - i) = ks at hbound
    induction ks with
    | nil => rfl
    | cons k ks ih =>
      obtain ⟨hk, hks⟩ := List.forall_mem_cons.mp hbound
      obtain ⟨w, hword, hwordAt⟩ := wordAt_eq hp s.unary hk
      rw [List.mapM_cons, hword, ih hks, List.filterMap_cons, hwordAt]
      rfl
  rw [render, exec_bind_ok (t := { s with rendered := s.rendered ++ [(i, j)] }) (a := ()) rfl,
    exec_bind_ok exec_get, hwords]
  rfl

theorem forward_render (hij : p.IsInterval (i, j))
    (hs : s.index ≤ p.lexemes.length) :
    Forward p s { s with rendered := s.rendered ++ [(i, j)] } :=
  { Forward.refl hs with rendered := ⟨[(i, j)], rfl, by simpa using hij⟩ }

/-- The expression of a clause, from its start on. -/
theorem agrees_expression (hp : p.Faithful) (hs : s.Sound p) (c : Clause) :
    Agrees p (p.outcome (.exprStart c) ⟨st, []⟩ s.index) (call p (.expression 1))
      (fun _ t => p.outcome (Spot.within (.end_, []) c)
        ⟨st, p.words t.unary s.index t.index⟩ t.index) s :=
  call_follows hp (.expression 1) s hs.inside .expression hs c ⟨st, []⟩

theorem agrees_fragment (hp : p.Faithful) (hs : s.Sound p) (c : Clause) :
    Agrees p (p.outcome (.exprStart c) ⟨st, []⟩ s.index) (fragment p)
      (fun f t => p.after c ⟨st, f⟩ t.index) s := by
  refine .step exec_get (.refl hs.inside) (.bind (agrees_expression hp hs c) fun _ t he hF => ?_)
  have hlt := (forward_of_call he hs.inside trivial).2
  refine .step exec_get (.refl hF.inside) ?_
  exact .of_ok (exec_render hp hF.inside) (forward_render ⟨hlt, hF.inside⟩ hF.inside)
    (outcome_end _ _ _)

/-- After an expression that no direction follows, as after one with its direction. -/
theorem alike_orderEnd {x next : Option Token} (hasc : x ≠ some (.keyword .asc))
    (hdesc : x ≠ some (.keyword .desc)) :
    Place.Alike x next (Spot.within (.end_, []) .orderTerm) .orderEnd := by
  refine .intro (fun _ => rfl) fun t ht => ?_
  show Clause.endStep .orderTerm t = Place.step .orderEnd t next
  rw [Place.step]
  unfold Clause.endStep
  split <;> simp_all

theorem agrees_direction (hs : s.Sound p) (f : Fragment) :
    Agrees p (p.outcome (Spot.within (.end_, []) .orderTerm) ⟨st, f⟩ s.index) (direction p)
      (fun _ t => p.outcome .orderEnd ⟨st, f ++ p.words t.unary s.index t.index⟩ t.index) s := by
  have hword : ∀ {x : Token}, p.tokenAt s.index = some x →
      Clause.endStep .orderTerm x = .ok ⟨none, .word false, .orderEnd⟩ →
      p.outcome (Spot.within (.end_, []) .orderTerm) ⟨st, f⟩ s.index =
        p.outcome .orderEnd ⟨st, f ++ p.words s.unary s.index (s.index + 1)⟩ (s.index + 1) := by
    intro x hx hend
    obtain ⟨l, hl, rfl⟩ := Option.map_eq_some_iff.mp hx
    rw [words_succ hl, hs.contains_index]
    exact outcome_step (Spot.within (.end_, []) .orderTerm) hl hend
  refine .consume_bind (fun hasc => ?_) fun hasc => .consume_bind (fun hdesc => ?_) fun hdesc => ?_
  · exact .of_pure () (lt_of_tokenAt hasc) (hword hasc rfl)
  · exact .of_pure () (lt_of_tokenAt hdesc) (hword hdesc rfl)
  · refine .of_pure () hs.inside ?_
    rw [words_self, List.append_nil]
    exact outcome_eq_of_alike (alike_orderEnd hasc hdesc)

theorem agrees_orderTerm (hp : p.Faithful) (hs : s.Sound p) :
    Agrees p (p.outcome (.exprStart .orderTerm) ⟨st, []⟩ s.index) (orderTerm p)
      (fun f t => p.outcome .orderEnd ⟨st, f⟩ t.index) s := by
  refine .step exec_get (.refl hs.inside) (.bind (agrees_expression hp hs _) fun _ t he hF => ?_)
  have hlt := (forward_of_call he hs.inside trivial).2
  refine .bind (agrees_direction (hF.sound hs) _) fun _ u _ hF' => ?_
  refine .step exec_get (.refl hF'.inside) ?_
  refine .of_ok (exec_render hp hF'.inside)
    (forward_render ⟨Nat.lt_of_lt_of_le hlt hF'.le, hF'.inside⟩ hF'.inside) ?_
  rw [words_forward hF hF']

/-! ## Lists with commas -/

/-- A list of pieces, from one piece: `rest` is what the automaton makes of the lexemes after a
piece, and `stop` what it makes of those after the last. -/
theorem agrees_separated {piece : Reader α} {place : Place}
    {put : Statement Fragment → α → Statement Fragment}
    {rest : Statement Fragment → α → Nat → Except String (Statement Fragment)}
    {stop : Statement Fragment → Nat → Except String (Statement Fragment)}
    (hcovers : Covers p 1 piece)
    (hpiece : ∀ st s, s.Sound p → Agrees p (p.outcome place ⟨st, []⟩ s.index) piece
      (fun a t => rest st a t.index) s)
    (hcomma : ∀ st a i, p.tokenAt i = some (.symbol .comma) →
      rest st a i = p.outcome place ⟨put st a, []⟩ (i + 1))
    (hstop : ∀ st a i, p.tokenAt i ≠ some (.symbol .comma) → rest st a i = stop (put st a) i)
    (st : Statement Fragment) (hs : s.Sound p) :
    Agrees p (p.outcome place ⟨st, []⟩ s.index) (separated p piece)
      (fun as t => stop (as.foldl put st) t.index) s := by
  induction hn : p.lexemes.length - s.index using Nat.strongRecOn generalizing s st with
  | ind n ih =>
    rw [separated]
    refine .bind (hpiece st s hs) fun a t he hF => ?_
    have hlt := ((hcovers s hs.inside).forward he).2
    refine .consume_bind (fun hx => ?_) fun hx => ?_
    · have hinside := lt_of_tokenAt hx
      have ht := (hF.sound hs).advance hinside
      rw [hcomma st a _ hx]
      refine .bind (ih _ ?_ (put st a) ht rfl) fun as u _ hF' => ?_
      · simp only [Cursor.advance]
        omega
      · exact .of_pure _ hF'.inside rfl
    · exact .of_pure [a] hF.inside (hstop st a _ hx)

/-! ## Between clauses -/

/-- A token between clauses, which the automaton passes over. -/
theorem outcome_skip (place : Place) {place' : Place} {ended : Option Slot}
    (hx : p.tokenAt i = some x) (hstep : ∀ next, place.step x next = .ok ⟨ended, .skip, place'⟩) :
    p.outcome place d i = p.outcome place' (d.close ended) (i + 1) := by
  obtain ⟨l, hl, rfl⟩ := Option.map_eq_some_iff.mp hx
  exact outcome_step place hl (hstep _)

theorem after_skip {c : Clause} {slot : Slot} {place : Place} (hx : p.tokenAt i = some x)
    (hend : c.endStep x = .ok ⟨some slot, .skip, place⟩) (f : Fragment) :
    p.after c ⟨st, f⟩ i = p.outcome place ⟨st.put f slot, []⟩ (i + 1) := by
  rw [← outcome_end]
  exact outcome_skip (Spot.within (.end_, []) c) hx fun _ => hend

theorem Agrees.expect_skip {place place' : Place} {f : Unit → Reader α}
    {after : α → Cursor → Except String (Statement Fragment)} (e : Expected) (he : e ≠ .nothing)
    (hstep : ∀ next, place.step x next = .ok ⟨none, .skip, place'⟩)
    (hrejects : p.tokenAt s.index ≠ some x →
      place.Rejects (p.tokenAt s.index) (p.tokenAt (s.index + 1)) e)
    (h : s.index < p.lexemes.length →
      Agrees p (p.outcome place' d (s.index + 1)) (f ()) after (s.advance 1)) :
    Agrees p (p.outcome place d s.index) (expect p x e.description >>= f) after s := by
  refine .expect_bind (fun hx => ?_) fun hx => outcome_of_rejects he (hrejects hx)
  rw [outcome_skip place hx hstep]
  exact h (lt_of_tokenAt hx)

theorem forall_head?_drop {y : Token} (hy : p.tokenAt i ≠ some y) :
    ∀ l ∈ (p.lexemes.drop i).head?, l.token ≠ y := by
  rintro l hl rfl
  exact hy (by rw [← Input.head?_drop, hl, Option.map_some])

/-! ## What stands before the clauses -/

theorem agrees_quantifier (hs : s.Sound p) :
    Agrees p (p.outcome .quantifier {} s.index) (quantifier p)
      (fun b t => p.outcome .column ⟨{ distinct := b }, []⟩ t.index) s := by
  refine .consume_bind (fun hdistinct => ?_) fun hdistinct => ?_
  · refine .of_pure true (lt_of_tokenAt hdistinct) ?_
    obtain ⟨l, hl, ht⟩ := Option.map_eq_some_iff.mp hdistinct
    exact outcome_step .quantifier hl (by rw [ht]; rfl)
  · refine .consume_bind (fun hall => ?_) fun hall => ?_
    · exact .of_pure false (lt_of_tokenAt hall) (outcome_skip .quantifier hall fun _ => rfl)
    · refine .of_pure false hs.inside (congrArg (Except.mapError _) (readFrom_quantifier_eq ?_))
      exact fun l hl => ⟨forall_head?_drop hdistinct l hl, forall_head?_drop hall l hl⟩

/-- A lexeme that is the alias of the last column. -/
theorem outcome_alias (place : Place) (ended : Option Slot) {f : Fragment} {l : Lexeme}
    (hl : p.lexemes[i]? = some l)
    (hstep : place.step l.token (p.tokenAt (i + 1)) = .ok ⟨ended, .alias, .columnEnd⟩)
    (hd : d.close ended = ⟨st.put f .column, []⟩) :
    p.outcome place d i =
      p.outcome .columnEnd ⟨st.addColumn (.expr f (some (Layout.nameOf l))), []⟩ (i + 1) := by
  rw [outcome_step place hl hstep, hd, ← Statement.aliasLast_put]
  rfl

/-- A column without an alias. -/
theorem after_column (f : Fragment) (has : p.tokenAt i ≠ some (.keyword .as_))
    (hident : p.tokenAt i ≠ some .ident) :
    p.after .column ⟨st, f⟩ i = p.outcome .columnEnd ⟨st.addColumn (.expr f none), []⟩ i := by
  rw [Input.after, Input.outcome]
  congr 1
  have has := forall_head?_drop has
  have hident := forall_head?_drop hident
  cases hls : p.lexemes.drop i with
  | nil => rfl
  | cons l rest =>
    rw [hls] at has hident
    have has := has l rfl
    have hident := hident l rfl
    rw [afterExpr, readFrom]
    cases ht : l.token with
    | keyword k => cases k <;> first | rfl | exact absurd ht has
    | symbol y => cases y <;> rfl
    | ident => exact absurd ht hident
    | _ => rfl

/-- A name may follow a column: after AS, or a name without quotes. -/
theorem agrees_columnAlias (hp : p.Faithful) (hs : s.Sound p) (f : Fragment) :
    Agrees p (p.after .column ⟨st, f⟩ s.index) (columnAlias p)
      (fun name t => p.outcome .columnEnd ⟨st.addColumn (.expr f name), []⟩ t.index) s := by
  refine .consume_bind (fun has => ?_) fun has => .peekIs_bind (fun hident => ?_) fun hident => ?_
  · have hinside := lt_of_tokenAt has
    rw [after_skip has rfl]
    by_cases hn : ∃ y, p.tokenAt (s.index + 1) = some y ∧ isNaming y
    · obtain ⟨y, hy, hn⟩ := hn
      have hafter := lt_of_tokenAt hy
      obtain ⟨l, hl, rfl⟩ := Option.map_eq_some_iff.mp hy
      refine .step (exec_consumeName (s := s.advance 1) hp hl hn) (.advance hafter) ?_
      refine .of_pure (some (Layout.nameOf l)) hafter (outcome_alias .alias none hl ?_ rfl)
      rw [Place.step, isName_eq_isNaming, if_pos hn]
    · have hn' : ∀ y, p.tokenAt (s.index + 1) = some y → ¬ isNaming y :=
        fun y hy h => hn ⟨y, hy, h⟩
      refine .step (exec_consumeName_none (s := s.advance 1) hn') (.refl hinside) ?_
      refine .of_refused (exec_refuse _) (outcome_of_rejects (e := .aliasAfterAs) (by decide) ?_)
      exact .intro (fun _ => rfl) fun y hy => if_neg (isName_eq_isNaming y ▸ hn' y hy)
  · have hinside := lt_of_tokenAt hident
    obtain ⟨l, hl, ht⟩ := Option.map_eq_some_iff.mp hident
    refine .of_ok (exec_consumeName hp hl (ht ▸ rfl)) (.advance hinside) ?_
    rw [← outcome_end]
    exact outcome_alias (Spot.within (.end_, []) .column) (some .column) hl (by rw [ht]; rfl) rfl
  · exact .of_pure none hs.inside (after_column f has hident)

theorem agrees_column (hp : p.Faithful) (st : Statement Fragment) (hs : s.Sound p) :
    Agrees p (p.outcome .column ⟨st, []⟩ s.index) (column p)
      (fun c t => p.outcome .columnEnd ⟨st.addColumn c, []⟩ t.index) s := by
  refine .consume_bind (fun hstar => ?_) fun hstar => ?_
  · refine .of_pure _ (lt_of_tokenAt hstar) ?_
    obtain ⟨l, hl, ht⟩ := Option.map_eq_some_iff.mp hstar
    exact outcome_step .column hl (by rw [ht]; rfl)
  · have hcolumn : p.outcome .column ⟨st, []⟩ s.index =
        p.outcome (.exprStart .column) ⟨st, []⟩ s.index :=
      congrArg (Except.mapError _) (readFrom_column_eq (forall_head?_drop hstar))
    rw [hcolumn]
    refine .bind (agrees_fragment hp hs .column) fun f t _ hF => ?_
    refine .bind (agrees_columnAlias hp (hF.sound hs) f) fun name u _ hF' => ?_
    exact .of_pure _ hF'.inside rfl

/-- What the automaton makes of the lexemes after the last column. -/
def Input.fromSource (p : Input) (st : Statement Fragment) (i : Nat) :
    Except String (Statement Fragment) :=
  match p.tokenAt i with
  | some (.source path) => p.outcome .sourceEnd ⟨{ st with path := path }, []⟩ (i + 1)
  | _ => .error (p.complaint i "FROM")

theorem outcome_columnEnd (hx : p.tokenAt i ≠ some (.symbol .comma)) :
    p.outcome .columnEnd ⟨st, []⟩ i = p.fromSource st i := by
  rw [Input.fromSource]
  split
  · rename_i path hpath
    obtain ⟨l, hl, ht⟩ := Option.map_eq_some_iff.mp hpath
    exact outcome_step .columnEnd hl (by rw [ht]; rfl)
  · rename_i hsource
    refine outcome_of_rejects (e := .source) (by decide) (.intro (fun _ => rfl) fun y hy => ?_)
    cases y with
    | source path => exact absurd hy (hsource path)
    | symbol y => cases y <;> first | rfl | exact absurd hy hx
    | _ => rfl

theorem agrees_columns (hp : p.Faithful) (st : Statement Fragment) (hs : s.Sound p) :
    Agrees p (p.outcome .column ⟨st, []⟩ s.index) (separated p (column p))
      (fun cs t => p.fromSource { st with columns := st.columns ++ cs } t.index) s := by
  have h : Agrees p (p.outcome .column ⟨st, []⟩ s.index) (separated p (column p))
      (fun cs t => p.fromSource (cs.foldl Statement.addColumn st) t.index) s :=
    agrees_separated covers_column (fun st _ hs => agrees_column hp st hs)
      (fun _ _ _ hx => outcome_skip .columnEnd hx fun _ => rfl)
      (fun _ _ _ hx => outcome_columnEnd hx) st hs
  simpa only [foldl_addColumn] using h

theorem agrees_sourcePath (hs : s.Sound p) :
    Agrees p (p.fromSource st s.index) (sourcePath p)
      (fun path t => p.outcome .sourceEnd ⟨{ st with path := path }, []⟩ t.index) s := by
  refine .step (exec_peek 0) (.refl hs.inside) ?_
  rw [Input.fromSource, Nat.add_zero]
  cases hx : p.tokenAt s.index with
  | none => exact .of_refused (exec_refuse _) rfl
  | some x =>
    have hinside := lt_of_tokenAt hx
    cases x with
    | source path =>
      exact .step (exec_advance 1) (.advance hinside) (.of_pure path hinside rfl)
    | _ => exact .of_refused (exec_refuse _) rfl

/-! ## Clauses -/

/-- What the automaton makes of the lexemes once the clauses of lower rank than `k` are read. -/
def Input.tail (p : Input) (k : Nat) (st : Statement Fragment) (i : Nat) :
    Except String (Statement Fragment) :=
  (readTail k st (p.lexemes.drop i)).mapError SyntaxError.message

theorem outcome_sourceEnd : p.outcome .sourceEnd ⟨st, []⟩ i = p.tail 0 st i :=
  congrArg (Except.mapError _) readFrom_sourceEnd

/-- The word of a clause comes next. -/
theorem tail_eq_outcome (c : Tail) (hx : p.tokenAt i = some (.keyword c.keyword)) :
    p.tail c.rank st i = p.outcome c.place ⟨st, []⟩ (i + 1) := by
  obtain ⟨l, hl, ht⟩ := Option.map_eq_some_iff.mp hx
  have hstep := tailStep_eq_ok_iff (e := none).mpr ⟨c, Nat.le_refl _, ht, rfl⟩
  rw [Input.tail, Input.lexemes_drop hl, readTail, hstep]
  rfl

/-- A clause is left out. -/
theorem tail_succ (c : Tail) (hx : p.tokenAt i ≠ some (.keyword c.keyword)) :
    p.tail c.rank st i = p.tail (c.rank + 1) st i := by
  rw [Input.tail, Input.tail]
  congr 1
  have hx := forall_head?_drop hx
  cases hls : p.lexemes.drop i with
  | nil => rfl
  | cons l rest =>
    rw [hls] at hx
    have hx := hx l rfl
    have hstep : tailStep c.rank none l.token = tailStep (c.rank + 1) none l.token := by
      unfold tailStep
      split <;> cases c <;> first | rfl | exact absurd (by assumption) hx
    rw [readTail, readTail, hstep]

theorem after_eq_tail {c : Clause} {k : Nat} {f : Fragment} (hc : c ≠ .column)
    (hend : ∀ y, p.tokenAt i = some y → c.endStep y = tailStep k (some c.slot) y) :
    p.after c ⟨st, f⟩ i = p.tail k (st.put f c.slot) i := by
  refine congrArg (Except.mapError _) (afterExpr_eq_readTail hc fun l hl => hend _ ?_)
  rw [← Input.head?_drop, hl, Option.map_some]

/-- What the automaton makes of the lexemes after the last term of GROUP BY. -/
def Input.afterGroup (p : Input) (st : Statement Fragment) (i : Nat) :
    Except String (Statement Fragment) :=
  if p.tokenAt i = some (.keyword .having) then p.outcome (.exprStart .having) ⟨st, []⟩ (i + 1)
  else p.tail 2 st i

theorem after_groupTerm (f : Fragment) (hcomma : p.tokenAt i ≠ some (.symbol .comma)) :
    p.after .groupTerm ⟨st, f⟩ i = p.afterGroup (st.put f .groupTerm) i := by
  rw [Input.afterGroup]
  split
  · exact after_skip (by assumption) rfl f
  · refine after_eq_tail (by decide) fun y hy => ?_
    unfold Clause.endStep
    split <;> simp_all [Clause.slot]

/-- What the automaton makes of the lexemes after a term of ORDER BY and its direction. -/
theorem outcome_orderEnd (f : Fragment) (hcomma : p.tokenAt i ≠ some (.symbol .comma)) :
    p.outcome .orderEnd ⟨st, f⟩ i = p.tail 3 (st.put f .orderTerm) i := by
  have hcomma := forall_head?_drop hcomma
  refine congrArg (Except.mapError _) ?_
  cases hls : p.lexemes.drop i with
  | nil => rfl
  | cons l rest =>
    rw [hls] at hcomma
    rw [readFrom, readTail, Place.step, if_neg (hcomma l rfl), tailStep_ended]
    cases hstep : tailStep 3 none l.token with
    | error e => rfl
    | ok step =>
      obtain ⟨c, -, -, rfl⟩ := tailStep_eq_ok_iff.mp hstep
      rfl

/-- No clause follows LIMIT. -/
theorem tailStep_four (e : Option Slot) (y : Token) : tailStep 4 e y = .error .nothing := by
  unfold tailStep
  split <;> rfl

theorem after_limit (f : Fragment) (hoffset : p.tokenAt i ≠ some (.keyword .offset))
    (hcomma : p.tokenAt i ≠ some (.symbol .comma)) :
    p.after .limit ⟨st, f⟩ i = p.tail 4 { st with limit := some f } i := by
  refine after_eq_tail (by decide) fun y hy => ?_
  rw [tailStep_four]
  unfold Clause.endStep
  split <;> simp_all

section Clauses

variable (hp : p.Faithful)

include hp

theorem agrees_fragmentAfter (hs : s.Sound p) {k : Keyword} {c : Clause}
    {before : Except String (Statement Fragment)}
    {after : Option Fragment → Nat → Except String (Statement Fragment)}
    (hyes : p.tokenAt s.index = some (.keyword k) →
      before = p.outcome (.exprStart c) ⟨st, []⟩ (s.index + 1))
    (hafter : ∀ f i, p.after c ⟨st, f⟩ i = after (some f) i)
    (hno : p.tokenAt s.index ≠ some (.keyword k) → before = after none s.index) :
    Agrees p before (fragmentAfter p k) (fun f t => after f t.index) s := by
  refine .consume_bind (fun hk => ?_) fun hk => .of_pure none hs.inside (hno hk)
  have hs := hs.advance (lt_of_tokenAt hk)
  rw [hyes hk]
  refine .bind (agrees_fragment hp hs c) fun f t _ hF => ?_
  exact .of_pure (some f) hF.inside (hafter f _)

theorem agrees_where (hs : s.Sound p) :
    Agrees p (p.tail 0 st s.index) (fragmentAfter p .where_)
      (fun f t => p.tail 1 { st with predicate := f.or st.predicate } t.index) s :=
  agrees_fragmentAfter hp hs (tail_eq_outcome .where_)
    (fun _ _ => after_eq_tail (by decide) fun _ _ => rfl) (tail_succ .where_)

theorem agrees_having (hs : s.Sound p) :
    Agrees p (p.afterGroup st s.index) (fragmentAfter p .having)
      (fun f t => p.tail 2 { st with having := f.or st.having } t.index) s :=
  agrees_fragmentAfter hp hs (fun hx => if_pos hx)
    (fun _ _ => after_eq_tail (by decide) fun _ _ => rfl) fun hx => if_neg hx

theorem agrees_groupTerms (hs : s.Sound p) (st : Statement Fragment) :
    Agrees p (p.outcome (.exprStart .groupTerm) ⟨st, []⟩ s.index) (separated p (fragment p))
      (fun fs t => p.afterGroup { st with groupBy := st.groupBy ++ fs } t.index) s := by
  have h := agrees_separated covers_fragment (fun _ _ hs => agrees_fragment hp hs .groupTerm)
    (fun _ f _ hx => after_skip hx rfl f) (fun _ f _ hx => after_groupTerm f hx) st hs
  simpa only [foldl_put_groupTerm] using h

theorem agrees_orderTerms (hs : s.Sound p) (st : Statement Fragment) :
    Agrees p (p.outcome (.exprStart .orderTerm) ⟨st, []⟩ s.index) (separated p (orderTerm p))
      (fun fs t => p.tail 3 { st with orderBy := st.orderBy ++ fs } t.index) s := by
  have h := agrees_separated covers_orderTerm (fun _ _ hs => agrees_orderTerm hp hs)
    (fun _ _ _ hx => outcome_skip .orderEnd hx fun _ => rfl)
    (fun _ f _ hx => outcome_orderEnd f hx) st hs
  simpa only [foldl_put_orderTerm] using h

theorem agrees_grouping (hs : s.Sound p) :
    Agrees p (p.tail 1 st s.index) (grouping p)
      (fun g t => p.tail 2 { st with groupBy := st.groupBy ++ g.1, having := g.2.or st.having }
        t.index) s := by
  refine .consume_bind (fun hgroup => ?_) fun hgroup => ?_
  · have hs := hs.advance (lt_of_tokenAt hgroup)
    rw [show 1 = Tail.group.rank from rfl, tail_eq_outcome .group hgroup]
    refine .expect_skip (s := s.advance 1) .byAfterGroup (by decide) (fun _ => rfl)
      (fun hby => .intro (fun _ => rfl) fun _ ht => if_neg (ne_of_ne_some hby ht)) fun hby => ?_
    have hs := hs.advance hby
    refine .bind (agrees_groupTerms hp hs st) fun terms t _ hF => ?_
    refine .bind (agrees_having hp (hF.sound hs)) fun having u _ hF' => ?_
    exact .of_pure (terms, having) hF'.inside rfl
  · refine .of_pure ([], none) hs.inside ?_
    simp only [List.append_nil, Option.none_or]
    exact tail_succ .group hgroup

theorem agrees_ordering (hs : s.Sound p) :
    Agrees p (p.tail 2 st s.index) (ordering p)
      (fun fs t => p.tail 3 { st with orderBy := st.orderBy ++ fs } t.index) s := by
  refine .consume_bind (fun horder => ?_) fun horder => ?_
  · have hs := hs.advance (lt_of_tokenAt horder)
    rw [show 2 = Tail.order.rank from rfl, tail_eq_outcome .order horder]
    refine .expect_skip (s := s.advance 1) .byAfterOrder (by decide) (fun _ => rfl)
      (fun hby => .intro (fun _ => rfl) fun _ ht => if_neg (ne_of_ne_some hby ht)) fun hby => ?_
    exact agrees_orderTerms hp (hs.advance hby) st
  · refine .of_pure [] hs.inside ?_
    simp only [List.append_nil]
    exact tail_succ .order horder

/-- A number that nothing can follow. -/
theorem agrees_lastNumber {c : Clause} (hc : c ≠ .column)
    (hend : ∀ y, c.endStep y = .error .nothing) (hs : s.Sound p) :
    Agrees p (p.outcome (.exprStart c) ⟨st, []⟩ s.index) (fragment p)
      (fun f t => p.tail 4 (st.put f c.slot) t.index) s :=
  (agrees_fragment hp hs c).congr_after fun _ _ _ =>
    after_eq_tail hc fun y _ => (hend y).trans (tailStep_four _ y).symm

theorem agrees_limits (hs : s.Sound p) :
    Agrees p (p.tail 3 st s.index) (limits p)
      (fun r t => p.tail 4 { st with limit := r.1.or st.limit, offset := r.2.or st.offset }
        t.index) s := by
  refine .consume_bind (fun hlimit => ?_) fun hlimit => ?_
  · have hs := hs.advance (lt_of_tokenAt hlimit)
    rw [show 3 = Tail.limit.rank from rfl, tail_eq_outcome .limit hlimit]
    refine .bind (agrees_fragment hp hs .limit) fun first t _ hF => ?_
    have ht := hF.sound hs
    refine .consume_bind (fun hoffset => ?_) fun hoffset =>
      .consume_bind (fun hcomma => ?_) fun hcomma => ?_
    · have ht := ht.advance (lt_of_tokenAt hoffset)
      rw [after_skip hoffset rfl]
      refine .bind (agrees_lastNumber hp (by decide) (fun _ => rfl) ht) fun second u _ hF' => ?_
      exact .of_pure (some first, some second) hF'.inside rfl
    · have ht := ht.advance (lt_of_tokenAt hcomma)
      rw [after_skip hcomma rfl]
      refine .bind (agrees_lastNumber hp (by decide) (fun _ => rfl) ht) fun second u _ hF' => ?_
      exact .of_pure (some second, some first) hF'.inside rfl
    · exact .of_pure (some first, none) hF.inside (after_limit first hoffset hcomma)
  · refine .of_pure (none, none) hs.inside ?_
    simp only [Option.none_or]
    exact tail_succ .limit hlimit

end Clauses

theorem agrees_atEnd (hs : s.Sound p) :
    Agrees p (p.tail 4 st s.index) (atEnd p) (fun _ _ => .ok st) s := by
  refine .step exec_get (.refl hs.inside) ?_
  cases hl : p.lexemes[s.index]? with
  | none =>
    refine .of_pure () hs.inside ?_
    rw [Input.tail, List.drop_eq_nil_of_le (List.getElem?_eq_none_iff.mp hl)]
    rfl
  | some l =>
    refine .of_refused (t := s) rfl ?_
    rw [Input.tail, Input.lexemes_drop hl, readTail, tailStep_four]
    rfl

theorem agrees_clauses (hp : p.Faithful) (hs : s.Sound p) (path : String) (distinct : Bool)
    (columns : List (Column Fragment)) :
    Agrees p (p.tail 0 { path, distinct, columns } s.index) (clauses p path distinct columns)
      (fun st t => p.tail 4 st t.index) s := by
  refine .bind (agrees_where hp hs) fun predicate t _ hFt => ?_
  have ht := hFt.sound hs
  refine .bind (agrees_grouping hp ht) fun groups u _ hFu => ?_
  have hu := hFu.sound ht
  refine .bind (agrees_ordering hp hu) fun orderBy v _ hFv => ?_
  have hv := hFv.sound hu
  refine .bind (agrees_limits hp hv) fun rows w _ hFw => ?_
  refine .of_pure _ hFw.inside ?_
  simp

/-- **The descent reads what the automaton reads**, from every index of every list of lexemes. -/
theorem agrees_statement (hp : p.Faithful) (hs : s.Sound p) :
    Agrees p (p.outcome .start {} s.index) (statement p) (fun st _ => .ok st) s := by
  refine .expect_skip .select (by decide) (fun _ => rfl)
    (fun hx => .intro (fun _ => rfl) fun _ ht => if_neg (ne_of_ne_some hx ht)) fun hx => ?_
  have ht := hs.advance hx
  refine .bind (agrees_quantifier ht) fun distinct u _ hFu => ?_
  have hu := hFu.sound ht
  refine .bind (agrees_columns hp _ hu) fun columns v _ hFv => ?_
  have hv := hFv.sound hu
  refine .bind (agrees_sourcePath hv) fun path w _ hFw => ?_
  have hw := hFw.sound hv
  rw [outcome_sourceEnd]
  refine .bind (agrees_clauses hp hw path distinct columns) fun st x _ hFx => ?_
  refine .bind (agrees_atEnd (hFx.sound hw)) fun _ y _ hFy => ?_
  exact .of_pure st hFy.inside rfl

/-! ## Texts -/

theorem unquote_of_stands {cs text : List Char} (h : Token.Stands cs .ident text) :
    Text.unquote text = text := by
  cases h with
  | @plain q _ _ hq hmatch _ _ _ =>
    cases hmatch with
    | @ident c cs hc _ =>
      have hdouble : c ≠ '"' := by rintro rfl; exact absurd hc (by decide)
      have hsingle : c ≠ '\'' := by rintro rfl; exact absurd hc (by decide)
      rw [Text.unquote, if_neg (not_or.mpr ⟨hdouble, hsingle⟩)]
    | _ => cases hq

/-- The lexemes of a text are the pieces of it that they say. -/
theorem faithful_of_tokenize {text : String} {ls : List Lexeme} (h : tokenize text = .ok ls) :
    Input.Faithful ⟨text.toList, ls⟩ := by
  have hcut := tokenize_cut text
  rw [h] at hcut
  constructor
  · intro l hl
    obtain ⟨before, after, htext, hstart, -⟩ := hcut.stands l hl
    rw [htext, Lexeme.stop, ← hstart]
    exact slice?_append before l.text after
  · intro l hl ht
    obtain ⟨before, after, -, -, hstands⟩ := hcut.stands l hl
    rw [ht] at hstands
    exact unquote_of_stands hstands

/-- The descent ends with what the automaton says of the lexemes. -/
theorem exec_statement (hp : p.Faithful) :
    ∃ t, exec (statement p) {} =
      some ((readFrom .start {} p.lexemes).mapError fun e => .refused e.message, t) := by
  obtain ⟨r, t, he, -, -⟩ := covers_statement (p := p) {} (Nat.zero_le _)
  have hagrees := agrees_statement hp ⟨Nat.zero_le _, by simp⟩ r t he
  refine ⟨t, he.trans ?_⟩
  rw [Input.outcome, List.drop_zero] at hagrees
  cases hread : readFrom .start {} p.lexemes with
  | ok st =>
    rw [hread] at hagrees
    rcases r with (message | _) | st'
    · cases hagrees
    · cases hagrees
    · obtain rfl := Except.ok.inj hagrees.2
      rfl
  | error e =>
    rw [hread] at hagrees
    rcases r with (message | _) | st'
    · obtain rfl := Except.error.inj hagrees
      rfl
    · cases hagrees
    · cases hagrees.2

/-- The descent answers as the automaton. -/
theorem answer_eq (text : String) :
    answer text = some ((Statement.ofText text).mapError fun e => .refused e.message) := by
  rw [answer, Statement.ofText, Statement.outline]
  cases htext : tokenize text with
  | error e => rfl
  | ok ls =>
    cases ls with
    | nil => rfl
    | cons l ls =>
      obtain ⟨t, he⟩ := exec_statement (faithful_of_tokenize htext)
      have hlexemes : (do Statement.ofLexemes (← Except.ok (l :: ls))) =
          readFrom .start {} (l :: ls) := rfl
      simp only [he, hlexemes, Option.map_some]
      cases readFrom .start {} (l :: ls) <;> rfl

/-- **The descent goes forward and stays among the lexemes.** From every index of every list of
lexemes each call comes to an end. It leaves the index among the lexemes, whether it succeeds or
not, and records the unary operators that it passes, in order; where it succeeds it has come
farther, but for the loops, which may find nothing to read. So the reading of a statement comes to
an end. It writes down intervals of lexemes only that are not empty, and does not crash where the
lexemes are pieces of the text. To every text it gives the answer of the automaton. -/
theorem descent_progresses :
    (∀ (p : Input) (c : Call) (s : Cursor), s.index ≤ p.lexemes.length → c.Due p s.index →
      ∃ r t, exec (call p c) s = some (r, t) ∧ t.index ≤ p.lexemes.length ∧
        (∃ ks, t.unary = s.unary ++ ks ∧ Prefixes p s.index t.index ks) ∧
        (r = .ok () → s.index + c.width ≤ t.index)) ∧
    (∀ p : Input, ∃ r t, exec (statement p) {} = some (r, t) ∧ t.index ≤ p.lexemes.length ∧
      (∀ interval ∈ t.rendered, p.IsInterval interval) ∧
      (p.Faithful → r ≠ .error .crashed)) ∧
    ∀ text, answer text = some ((Statement.ofText text).mapError fun e => .refused e.message) := by
  refine ⟨fun p c s hs hc => ?_, fun p => ?_, answer_eq⟩
  · obtain ⟨r, t, he, hF, hwidth⟩ := call_ends c s hs hc
    exact ⟨r, t, he, hF.inside, hF.unary, hwidth ()⟩
  · obtain ⟨r, t, he, hF, -⟩ := covers_statement (p := p) {} (Nat.zero_le _)
    obtain ⟨rs, hrs, hintervals⟩ := hF.rendered
    refine ⟨r, t, he, hF.inside, ?_, ?_⟩
    · rw [hrs]
      simpa using hintervals
    · rintro hp rfl
      exact agrees_statement hp ⟨Nat.zero_le _, by simp⟩ _ t he

/-- The NOT IN of `a NOT IN (1)`, an operator of two lexemes. -/
theorem descent_progresses_notIn :
    let p : Input := ⟨"a NOT IN (1)".toList,
      [⟨.ident, 0, ['a']⟩, ⟨.keyword .not_, 2, "NOT".toList⟩, ⟨.keyword .in_, 6, "IN".toList⟩,
        ⟨.symbol .openParen, 9, ['(']⟩, ⟨.number, 10, ['1']⟩, ⟨.symbol .closeParen, 11, [')']⟩]⟩
    1 ≤ p.lexemes.length ∧ p.infixAt 1 = some (.in_ true) ∧
      ∃ r t, exec (call p (.operator (.in_ true))) { index := 1 } = some (r, t) ∧
        t.index ≤ 6 ∧ (∃ ks, t.unary = [] ++ ks ∧ Prefixes p 1 t.index ks) ∧
        (r = .ok () → 2 ≤ t.index) := by
  intro p
  have hdue : p.infixAt 1 = some (.in_ true) := by decide
  exact ⟨by decide, hdue,
    descent_progresses.1 p (.operator (.in_ true)) { index := 1 } (by decide) hdue⟩

end TreeQuery.Query.Descent
