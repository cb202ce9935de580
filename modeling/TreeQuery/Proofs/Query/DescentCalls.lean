import TreeQuery.Proofs.Query.DescentAgreement
import TreeQuery.Proofs.Query.Layout

/-!
# The automaton follows the descent

While the descent reads a construct of an expression, the automaton of `Place` reads the same
lexemes. `Call.Leads` says for each construct where the automaton stands before it and after it.

Results:
* `call_stops`: a loop of the descent ends before a token that is not the one it goes on with.
* `call_follows`: the automaton follows every call, from the place before it to the place after it.
-/

namespace TreeQuery.Query.Descent

open Grammar (isSign isNaming)

variable {α β : Type} {p : Input} {s t u : Cursor} {i j : Nat}

/-! ## What a loop leaves behind -/

section Loops

variable {m : Reader α} {f : α → Reader β} {a : α} {b : β} {x : Token}

theorem Ends.forward (h : Ends p j m s) (he : exec m s = some (.ok a, t)) :
    Forward p s t ∧ j ≤ t.index := by
  obtain ⟨r, u, he', hF, hu⟩ := h
  obtain ⟨rfl, rfl⟩ := Prod.mk.inj (Option.some.inj (he'.symm.trans he))
  exact ⟨hF, hu a rfl⟩

theorem exec_bind_eq_ok (h : exec (m >>= f) s = some (.ok b, u)) :
    ∃ a t, exec m s = some (.ok a, t) ∧ exec (f a) t = some (.ok b, u) := by
  rw [exec_bind] at h
  obtain ⟨⟨r, t⟩, hm, h⟩ := Option.bind_eq_some_iff.mp h
  cases r with
  | ok a => exact ⟨a, t, hm, h⟩
  | error e => cases h

/-- A loop that goes on after a token stops where another one comes next. -/
theorem stops_of_consume {g : Bool → Reader Unit} (hstop : g false = pure ())
    (hgo : p.tokenAt s.index = some x → exec (g true) (s.advance 1) = some (.ok (), t) →
      p.tokenAt t.index ≠ some x)
    (he : exec (consume p x >>= g) s = some (.ok (), t)) : p.tokenAt t.index ≠ some x := by
  rw [exec_consume_bind] at he
  split at he
  · exact hgo (by assumption) he
  · rw [hstop] at he
    obtain ⟨-, rfl⟩ := Prod.mk.inj (Option.some.inj he)
    assumption

end Loops

theorem forward_of_call {c : Call} (he : exec (call p c) s = some (.ok (), t))
    (hs : s.index ≤ p.lexemes.length) (hc : c.Due p s.index) :
    Forward p s t ∧ s.index + c.width ≤ t.index :=
  (call_ends c s hs hc).forward he

/-- The token that a loop goes on with. -/
def Call.repeats : Call → Option Token
  | unary | collations => some (.keyword .collate)
  | expressions | moreExpressions => some (.symbol .comma)
  | alternatives => some (.keyword .when_)
  | _ => none

/-- **A loop stops before a token** that is not the one that it goes on with. -/
theorem call_stops {x : Token} (c : Call) (s : Cursor) (hs : s.index ≤ p.lexemes.length)
    (hx : c.repeats = some x) : ∀ {t}, exec (call p c) s = some (.ok (), t) →
      p.tokenAt t.index ≠ some x := by
  refine call_induction (P := fun c s => c.repeats = some x → ∀ {t},
    exec (call p c) s = some (.ok (), t) → p.tokenAt t.index ≠ some x) ?_ c s hs hx
  intro c s hs later _ hx t he
  cases c with
  | unary =>
    have hcollations : ∀ {c : Call} {v : Cursor}, s.index ≤ v.index →
        v.index ≤ p.lexemes.length → c.width = 1 → c.Due p v.index →
        exec (call p c >>= fun _ => call p .collations) v = some (.ok (), t) →
        p.tokenAt t.index ≠ some x := by
      intro c v hle hv hwidth hc he
      obtain ⟨_, u, hu, he⟩ := exec_bind_eq_ok he
      obtain ⟨hF, hlt⟩ := forward_of_call hu hv hc
      exact later .collations u (by omega) hF.inside hx he
    rw [call, exec_bind_ok (exec_peek 0)] at he
    split at he
    case h_4 => exact hcollations (c := .primary) (Nat.le_refl _) hs rfl trivial he
    all_goals
      rename_i htoken
      rw [exec_bind_ok exec_consumeUnary] at he
      exact hcollations (c := .unary) (v := s.takeUnary) (Nat.le_succ _) (lt_of_tokenAt htoken)
        rfl trivial he
  | collations =>
    obtain rfl := Option.some.inj hx
    rw [call] at he
    refine stops_of_consume rfl (fun hcollate he => ?_) he
    obtain ⟨name, u, hu, he⟩ := exec_bind_eq_ok he
    have hname := Ends.of_consumeName (s := s.advance 1) (lt_of_tokenAt hcollate)
    obtain ⟨hF, hlt⟩ := hname.forward hu
    cases name with
    | none => cases (exec_bind_error (exec_refuse _)).symm.trans he
    | some name => exact later .collations u hlt hF.inside rfl he
  | expressions =>
    rw [call_expressions] at he
    obtain ⟨_, u, hu, he⟩ := exec_bind_eq_ok he
    obtain ⟨hF, hlt⟩ := forward_of_call hu hs trivial
    exact later .moreExpressions u hlt hF.inside hx he
  | moreExpressions =>
    obtain rfl := Option.some.inj hx
    rw [call] at he
    refine stops_of_consume rfl (fun hcomma he => ?_) he
    obtain ⟨_, u, hu, he⟩ := exec_bind_eq_ok he
    obtain ⟨hF, hlt⟩ := forward_of_call hu (lt_of_tokenAt hcomma) trivial
    exact later .moreExpressions u (Nat.lt_of_succ_lt hlt) hF.inside rfl he
  | alternatives =>
    obtain rfl := Option.some.inj hx
    rw [call] at he
    refine stops_of_consume rfl (fun hwhen he => ?_) he
    obtain ⟨_, u, hu, he⟩ := exec_bind_eq_ok he
    obtain ⟨hFu, hlt⟩ := forward_of_call hu (lt_of_tokenAt hwhen) trivial
    obtain ⟨_, v, hv, he⟩ := exec_bind_eq_ok he
    obtain ⟨hFv, hltv⟩ := (Ends.of_expect hFu.inside _).forward hv
    obtain ⟨_, w, hw, he⟩ := exec_bind_eq_ok he
    obtain ⟨hFw, hltw⟩ := forward_of_call hw hFv.inside trivial
    simp only [Cursor.advance] at hlt
    exact later .alternatives w (by omega) hFw.inside rfl he
  | _ => cases hx

/-- A call, before a computation that begins as far behind it as the call comes. -/
theorem Follows.call_bind {P Q R : Spot} {c : Call} {f : Unit → Reader Unit}
    (hm : Follows p P (call p c) Q s) (hc : c.Due p s.index)
    (hf : ∀ t, s.index + c.width ≤ t.index →
      (∀ x, c.repeats = some x → p.tokenAt t.index ≠ some x) → Follows p Q (f ()) R t) :
    Follows p P (call p c >>= f) R s := by
  intro hs
  refine hm.bind (fun t he => hf t ?_ fun x hx => ?_) hs
  · exact (forward_of_call he hs.inside hc).2
  · exact call_stops c s hs.inside hx he

/-! ## Where the automaton stands -/

/-- A frame around expressions with commas between them, the mode after the parenthesis that closes
it, and what is asked for where that is missing. -/
inductive Encloses : Frame → Mode → Expected → Prop where
  | list : Encloses .list .end_ .closeList
  | arguments : Encloses .arguments .operandEnd .closeCall
  | group : Encloses .group .operandEnd .closeParen

/-- **Where the automaton stands** before a call at an index, and where after it. -/
inductive Call.Leads (p : Input) (i : Nat) : Call → Spot → Spot → Prop where
  | expression {l F} : Leads p i (.expression l) (.operand, .operators l :: F) (.end_, F)
  | operators {l F} : Leads p i (.operators l) (.end_, .operators l :: F) (.end_, F)
  | operator {op l F} : p.infixAt i = some op → l ≤ op.level →
      Leads p i (.operator op) (.end_, .operators l :: F) (.end_, .operators l :: F)
  | unary {F} : Leads p i .unary (.signed, F) (.end_, F)
  | collations {F} : Leads p i .collations (.operandEnd, F) (.end_, F)
  | primary {F} : (∀ t, p.tokenAt i = some t → ¬ isSign t) →
      Leads p i .primary (.signed, F) (.operandEnd, F)
  | arguments {F} : Leads p i .arguments (.call, F) (.operandEnd, F)
  | expressions {f m e F} : Encloses f m e →
      Leads p i .expressions (.operand, .operators 1 :: f :: F) (.end_, f :: F)
  | moreExpressions {f m e F} : Encloses f m e →
      Leads p i .moreExpressions (.end_, f :: F) (.end_, f :: F)
  | case_ {F} : p.tokenAt i = some (.keyword .case_) →
      Leads p i .case_ (.signed, F) (.operandEnd, F)
  | alternatives {F} :
      Leads p i .alternatives (.end_, .caseResult :: F) (.end_, .caseResult :: F)

theorem Call.Leads.due {c : Call} {P Q : Spot} (h : c.Leads p i P Q) : c.Due p i := by
  cases h with
  | operator hop _ => exact hop
  | _ => trivial

/-- The pieces of the text are the lexemes, and a name without quotes is the name that it is. -/
structure Input.Faithful (p : Input) : Prop where
  cut : ∀ l ∈ p.lexemes, slice? p.source l.start l.stop = some l.text
  plain : ∀ l ∈ p.lexemes, l.token = .ident → Text.unquote l.text = l.text

theorem exec_consumeName (hp : p.Faithful) {l : Lexeme} (hl : p.lexemes[s.index]? = some l)
    (hn : isNaming l.token) :
    exec (consumeName p) s = some (.ok (some (Layout.nameOf l)), s.advance 1) := by
  have hmem := List.mem_of_getElem? hl
  have htext : p.textOf l = .ok l.text := by rw [Input.textOf, hp.cut l hmem]
  rw [consumeName, exec_bind_ok exec_get]
  simp only [hl, htext]
  split
  case h_1 hident =>
    rw [exec_bind_ok (exec_ofExcept _), exec_bind_ok (exec_advance 1), exec_pure, Layout.nameOf,
      hp.plain l hmem hident]
  case h_2 | h_3 =>
    rw [exec_bind_ok (exec_ofExcept _), exec_bind_ok (exec_advance 1), exec_pure, Layout.nameOf]
  case h_4 =>
    cases htoken : l.token <;> simp_all [isNaming]

theorem exec_consumeName_none (hn : ∀ x, p.tokenAt s.index = some x → ¬ isNaming x) :
    exec (consumeName p) s = some (.ok none, s) := by
  rw [consumeName, exec_bind_ok exec_get]
  cases hl : p.lexemes[s.index]? with
  | none => rfl
  | some l =>
    have hnaming := hn l.token (congrArg (Option.map Lexeme.token) hl)
    cases htoken : l.token <;> simp_all [isNaming, exec_pure]

/-! ## What follows an operand -/

section End

variable {F : List Frame} {l : Nat}

theorem move_of_takes {next : Option Token} {x : Token} {m : Mode} {F' : List Frame}
    (h : Takes next F x m F') : Move F next .end_ x false m F' :=
  .resume rfl (List.nil_append F).symm (List.forall_mem_nil _) h

/-- The closing parenthesis, where no comma comes next. -/
theorem follows_close {f : Frame} {m : Mode} {e : Expected} (hf : Encloses f m e)
    (hcomma : p.tokenAt s.index ≠ some (.symbol .comma)) :
    Follows p (.end_, f :: F) (expect p (.symbol .closeParen) e.description) (m, F) s := by
  have he : e ≠ .nothing := by cases hf <;> decide
  refine .of_expect e he (move_of_takes ?_) fun hclose => rejects_end fun next => ?_
  · cases hf <;> constructor
  · cases hf <;> rw [resume, if_neg hcomma, if_neg hclose]

/-- The lexemes of an operator. -/
theorem follows_advance {op : Infix} (hop : p.infixAt s.index = some op) (hl : l ≤ op.level) :
    Follows p (.end_, .operators l :: F) (advance op.width) (op.enter (.operators l :: F)) s := by
  obtain ⟨x, hx, hop⟩ := Option.bind_eq_some_iff.mp hop
  rcases Infix.isPlain_or_isNegated hop with
    ⟨hwidth, o, ho, hlevel, henter⟩ | ⟨hwidth, rfl, hlevel, hn, y, hy, hmove⟩
  · rw [hwidth, ← henter]
    exact .of_advance hx (move_of_takes (.operator ho (hlevel ▸ hl)))
  · rw [hwidth]
    refine .congr (do advance 1; advance 1) rfl ?_
    refine .advance_bind hx ?_ (.of_advance hy (hmove _ _))
    rw [hlevel] at hl
    exact move_of_takes (.operator (.negation hn) hl)

end End

/-! ## Step by step -/

/-- The automaton follows the calls that are made behind the cursor. -/
def FollowsLater (p : Input) (s : Cursor) : Prop :=
  ∀ (c : Call) (t : Cursor) (P Q : Spot), s.index < t.index → c.Leads p t.index P Q →
    Follows p P (call p c) Q t

theorem FollowsLater.bind {P Q R : Spot} {c : Call} {f : Unit → Reader Unit}
    (later : FollowsLater p s) (ht : s.index < t.index) (hc : c.Leads p t.index P Q)
    (hf : ∀ u, s.index < u.index →
      (∀ x, c.repeats = some x → p.tokenAt u.index ≠ some x) → Follows p Q (f ()) R u) :
    Follows p P (call p c >>= f) R t :=
  (later c t P Q ht hc).call_bind hc.due fun u hu hx =>
    hf u (Nat.lt_of_lt_of_le ht (Nat.le_trans (Nat.le_add_right _ _) hu)) hx

section Step

variable (later : FollowsLater p s) {F : List Frame} {l : Nat}

include later

theorem follows_expression
    (hunary : Follows p (.signed, .operators l :: F) (call p .unary) (.end_, .operators l :: F) s) :
    Follows p (.operand, .operators l :: F) (call p (.expression l)) (.end_, F) s := by
  have hoperators : ∀ t : Cursor, s.index < t.index →
      Follows p (.end_, .operators l :: F) (call p (.operators l)) (.end_, F) t :=
    fun t ht => later _ t _ _ ht .operators
  rw [call]
  refine .peekIs_bind (fun hnot => ?_) fun hnot => ?_
  · refine .consumeUnary_bind hnot (.inl rfl) (.operand (.not rfl)) ?_
    exact later.bind (Nat.lt_succ_self _) .expression fun t ht _ => hoperators t ht
  · refine .alike (alike_signed hnot) ?_
    exact hunary.call_bind trivial fun t ht _ => hoperators t ht

theorem follows_operators
    (hoperator : ∀ op, p.infixAt s.index = some op → l ≤ op.level →
      Follows p (.end_, .operators l :: F) (call p (.operator op)) (.end_, .operators l :: F) s) :
    Follows p (.end_, .operators l :: F) (call p (.operators l)) (.end_, F) s := by
  rw [call]
  refine .congr _ (exec_bind_ok exec_peekInfix) ?_
  cases hop : p.infixAt s.index with
  | none => exact .alike (alike_operators fun op h =>
      absurd (h.symm.trans hop) (Option.some_ne_none op)) .done
  | some op =>
    by_cases hlevel : op.level < l
    · simp only [if_pos hlevel]
      refine .alike (alike_operators fun op' h => ?_) .done
      rwa [← Option.some.inj (hop.symm.trans h)]
    · simp only [if_neg hlevel]
      refine (hoperator op hop (Nat.le_of_not_lt hlevel)).call_bind hop fun t ht _ => ?_
      exact later _ t _ _ ht .operators

theorem follows_operator {op : Infix} (hop : p.infixAt s.index = some op) (hl : l ≤ op.level) :
    Follows p (.end_, .operators l :: F) (call p (.operator op)) (.end_, .operators l :: F) s := by
  have hpos := (width_of_infixAt hop).1
  have hadvance := follows_advance (F := F) hop hl
  cases op with
  | binary level =>
    rw [Infix.enter] at hadvance
    rw [call]
    refine hadvance.step (exec_advance _) ?_
    exact later _ _ _ _ (Nat.lt_succ_self _) .expression
  | is_ =>
    rw [Infix.enter] at hadvance
    rw [call]
    refine hadvance.step (exec_advance _) ?_
    refine .consume_bind (fun _ => .isNot) (fun _ => ?_) fun hnot => ?_
    · exact later _ _ _ _ (Nat.lt_add_of_pos_right (Nat.succ_pos 1)) .expression
    · exact .alike (alike_isOperand hnot) (later _ _ _ _ (Nat.lt_succ_self _) .expression)
  | in_ negated =>
    rw [Infix.enter] at hadvance
    rw [call]
    refine hadvance.step (exec_advance _) ?_
    refine .expect_bind .openList (by decide) .inList rejects_inList ?_
    refine .consume_bind (fun _ => .noItem) (fun _ => .done) fun hclose => ?_
    refine .alike (alike_item hclose) ?_
    refine later.bind ?_ (.expressions .list) fun t ht hcomma =>
      follows_close (e := .closeList) .list (hcomma _ rfl)
    simp only [Cursor.advance]
    omega
  | between negated =>
    rw [Infix.enter] at hadvance
    rw [call]
    refine hadvance.step (exec_advance _) ?_
    refine later.bind (Nat.lt_add_of_pos_right hpos) .expression fun t ht _ => ?_
    refine .expect_bind .andInBetween (by decide) (move_of_takes .and_)
      (fun hand => rejects_end fun _ => if_neg hand) ?_
    exact later _ _ _ _ (Nat.lt_succ_of_lt ht) .expression
  | like negated =>
    rw [Infix.enter] at hadvance
    rw [call]
    refine hadvance.step (exec_advance _) ?_
    refine later.bind (Nat.lt_add_of_pos_right hpos) .expression fun t ht _ => ?_
    refine .consume_bind (fun _ => move_of_takes .escape) (fun _ => ?_) fun hescape => ?_
    · exact later _ _ _ _ (Nat.lt_succ_of_lt ht) .expression
    · exact .alike (alike_pattern hescape) .done
  | nullTest lexemes =>
    rw [call]
    exact hadvance

theorem follows_collations (hp : p.Faithful) :
    Follows p (.operandEnd, F) (call p .collations) (.end_, F) s := by
  rw [call]
  refine .consume_bind (fun _ => .collate) (fun _ => ?_) fun hcollate =>
    .alike (alike_operandEnd hcollate) .done
  by_cases hn : ∃ x, p.tokenAt (s.index + 1) = some x ∧ isNaming x
  · obtain ⟨x, hx, hn⟩ := hn
    obtain ⟨c, hc, rfl⟩ := Option.map_eq_some_iff.mp hx
    refine .congr (do advance 1; call p .collations) ?_ ?_
    · exact exec_bind_ok (exec_consumeName (s := s.advance 1) hp hc hn)
    · refine .advance_bind (s := s.advance 1) hx (.collation hn) ?_
      exact later _ _ _ _ (Nat.lt_add_of_pos_right (Nat.succ_pos 1)) .collations
  · have hn' : ∀ x, p.tokenAt (s.index + 1) = some x → ¬ isNaming x :=
      fun x hx h => hn ⟨x, hx, h⟩
    refine .congr _ ?_ (.of_refuse .collationName (by decide) (rejects_collation hn'))
    exact (exec_bind_ok (exec_consumeName_none (s := s.advance 1) hn')).trans
      (exec_bind_error (exec_refuse _))

theorem follows_unary
    (hprimary : (∀ t, p.tokenAt s.index = some t → ¬ isSign t) →
      Follows p (.signed, F) (call p .primary) (.operandEnd, F) s) :
    Follows p (.signed, F) (call p .unary) (.end_, F) s := by
  rw [call]
  refine .congr _ (exec_bind_ok (exec_peek 0)) ?_
  rw [Nat.add_zero]
  have hsign : ∀ x, p.tokenAt s.index = some x → isSign x →
      Follows p (.signed, F) (do consumeUnary; call p .unary; call p .collations) (.end_, F) s := by
    intro x hx hsign
    refine .consumeUnary_bind hx (.inr hsign) (.signed (.sign hsign)) ?_
    refine later.bind (Nat.lt_succ_self _) .unary fun t ht hcollate => ?_
    exact .alike (alike_operandEnd (hcollate _ rfl)).symm (later _ _ _ _ ht .collations)
  split
  case h_4 hminus hplus htilde =>
    refine (hprimary ?_).call_bind trivial fun t ht _ => later _ _ _ _ ht .collations
    rintro (_ | _ | _ | _ | _ | _ | x) hx
    case symbol => cases x <;> simp_all [isSign]
    all_goals simp [isSign]
  all_goals exact hsign _ ‹_› rfl

theorem follows_arguments :
    Follows p (.call, F) (call p .arguments) (.operandEnd, F) s := by
  rw [call]
  refine .expect_bind .openParen (by decide) .call rejects_call ?_
  refine .consume_bind (fun _ => .star) (fun _ => ?_) fun hstar => ?_
  · refine .congr _ (exec_bind_ok (exec_peekIs _)) ?_
    exact .of_expect .closeCall (by decide) .callEnd rejects_callEnd
  · have hexpressions : ∀ t : Cursor, s.index < t.index →
        Follows p (.operand, .operators 1 :: .arguments :: F)
          (do call p .expressions; expect p (.symbol .closeParen) "')' closing call")
          (.operandEnd, F) t :=
      fun t ht => later.bind ht (.expressions .arguments) fun u _ hcomma =>
        follows_close (e := .closeCall) .arguments (hcomma _ rfl)
    refine .peekIs_bind (fun hclose => ?_) fun hclose => ?_
    · exact .of_expect .closeCall (by decide) .noArgument fun h => absurd hclose h
    · refine .consume_bind (fun _ => .distinct) (fun _ => ?_) fun hdistinct => ?_
      · exact hexpressions _ (Nat.lt_add_of_pos_right (Nat.succ_pos 1))
      · exact .alike (alike_argument hstar hclose hdistinct) (hexpressions _ (Nat.lt_succ_self _))

theorem follows_expressions {f : Frame} {m : Mode} {e : Expected} (hf : Encloses f m e)
    (hfirst : Follows p (.operand, .operators 1 :: f :: F) (call p (.expression 1))
      (.end_, f :: F) s) :
    Follows p (.operand, .operators 1 :: f :: F) (call p .expressions) (.end_, f :: F) s := by
  rw [call_expressions]
  exact hfirst.call_bind trivial fun t ht _ => later _ _ _ _ ht (.moreExpressions hf)

theorem follows_moreExpressions {f : Frame} {m : Mode} {e : Expected} (hf : Encloses f m e) :
    Follows p (.end_, f :: F) (call p .moreExpressions) (.end_, f :: F) s := by
  rw [call]
  refine .consume_bind (M := .operand) (G := .operators 1 :: f :: F) (fun _ => ?_)
    (fun _ => ?_) fun _ => .done
  · cases hf <;> exact move_of_takes (by constructor)
  · refine later.bind (Nat.lt_succ_self _) .expression fun t ht _ => ?_
    exact later _ _ _ _ ht (.moreExpressions hf)

theorem follows_alternatives :
    Follows p (.end_, .caseResult :: F) (call p .alternatives) (.end_, .caseResult :: F) s := by
  rw [call]
  refine .consume_bind (fun _ => move_of_takes .nextWhen) (fun _ => ?_) fun _ => .done
  refine later.bind (Nat.lt_succ_self _) .expression fun t ht _ => ?_
  refine .expect_bind .then_ (by decide) (move_of_takes .then_)
    (fun hthen => rejects_end fun _ => if_neg hthen) ?_
  refine later.bind (Nat.lt_succ_of_lt ht) .expression fun u hu _ => ?_
  exact later _ _ _ _ hu .alternatives

theorem follows_case (hcase : p.tokenAt s.index = some (.keyword .case_)) :
    Follows p (.signed, F) (call p .case_) (.operandEnd, F) s := by
  have hend : ∀ t : Cursor, s.index < t.index → p.tokenAt t.index = some (.keyword .when_) →
      Follows p (.end_, .caseResult :: F) (do
        call p .alternatives
        if ← consume p (.keyword .else_) then
          call p (.expression 1)
        expect p (.keyword .end_) "END closing CASE") (.operandEnd, F) t := by
    intro t ht hwhen
    refine later.bind ht .alternatives fun u hu hwhen => ?_
    refine .consume_bind (fun _ => move_of_takes .else_) (fun _ => ?_) fun helse => ?_
    · refine later.bind (Nat.lt_succ_of_lt hu) .expression fun v _ _ => ?_
      exact .of_expect .endCase (by decide) (move_of_takes .endDefault)
        fun hend => rejects_end fun _ => if_neg hend
    · exact .of_expect .endCase (by decide) (move_of_takes .endResult) fun hend =>
        rejects_end fun _ => (if_neg (hwhen _ rfl)).trans ((if_neg helse).trans (if_neg hend))
  rw [call]
  refine .expected_bind hcase (.signed .case_) (.peekIs_bind (fun hwhen => ?_) fun hwhen => ?_)
  · refine .peekIs_bind (fun _ => ?_) fun h => absurd hwhen h
    exact .alike (hwhen ▸ alike_firstWhen) (hend _ (Nat.lt_succ_self _) hwhen)
  · refine .alike (alike_subject hwhen) ?_
    refine later.bind (Nat.lt_succ_self _) .expression fun t ht _ => ?_
    refine .peekIs_bind (fun hwhen => ?_) fun hwhen => ?_
    · exact .alike (hwhen ▸ alike_subjectEnd) (hend t ht hwhen)
    · exact .refuse_bind .when_ (by decide) (rejects_end fun _ => if_neg hwhen)

theorem follows_primary (hp : ∀ t, p.tokenAt s.index = some t → ¬ isSign t)
    (hcase : p.tokenAt s.index = some (.keyword .case_) →
      Follows p (.signed, F) (call p .case_) (.operandEnd, F) s) :
    Follows p (.signed, F) (call p .primary) (.operandEnd, F) s := by
  rw [call]
  refine .congr _ (exec_bind_ok (exec_peek 0)) ?_
  rw [Nat.add_zero]
  cases hx : p.tokenAt s.index with
  | none =>
    exact .of_refuse .expression (by decide) (rejects_signed fun t ht =>
      absurd (ht.symm.trans hx) (Option.some_ne_none t))
  | some x =>
    simp only
    split
    case h_8 =>
      refine .advance_bind hx (.signed .name) ?_
      refine .consume_bind (fun _ => .dot) (fun _ => ?_) fun hdot => ?_
      · exact .of_expect .columnAfterDot (by decide) .member rejects_member
      · refine .peekIs_bind (fun hopen => ?_) fun hopen => ?_
        · exact .alike (hopen ▸ alike_call) (later _ _ _ _ (Nat.lt_succ_self _) .arguments)
        · exact .alike (alike_name hdot hopen) .done
    case h_9 =>
      refine .advance_bind hx (.signed .group) ?_
      exact later.bind (Nat.lt_succ_self _) (.expressions .group) fun t ht hcomma =>
        follows_close (e := .closeParen) .group (hcomma _ rfl)
    case h_10 => exact hcase hx
    case h_11 k _ _ _ _ _ =>
      refine .congr _ (exec_bind_ok (exec_peek 1)) ?_
      by_cases hcall : k.isLikeFamily && p.tokenAt (s.index + 1) == some (.symbol .openParen)
      · rw [if_pos hcall]
        rw [Bool.and_eq_true, beq_iff_eq, ← isLikeWord_keyword] at hcall
        refine .advance_bind hx (.signed (.function hcall.1 hcall.2)) ?_
        exact later _ _ _ _ (Nat.lt_succ_self _) .arguments
      · rw [if_neg hcall]
        refine .of_refuse .expression (by decide) (rejects_signed fun t ht c => ?_)
        obtain rfl := Option.some.inj (hx.symm.trans ht)
        cases k <;> simp_all [operandStep, Keyword.isLikeFamily]
    case h_12 =>
      refine .of_refuse .expression (by decide) (rejects_signed fun t ht c => ?_)
      obtain rfl := Option.some.inj (hx.symm.trans ht)
      unfold operandStep
      split <;> simp_all [isSign]
    all_goals exact .of_advance hx (.signed (.literal rfl))

end Step

/-- **The automaton follows every call.** -/
theorem call_follows (hp : p.Faithful) (c : Call) (s : Cursor) (hs : s.index ≤ p.lexemes.length)
    {P Q : Spot} (hc : c.Leads p s.index P Q) : Follows p P (call p c) Q s := by
  refine call_induction (P := fun c s => ∀ P Q, c.Leads p s.index P Q → Follows p P (call p c) Q s)
    ?_ c s hs P Q hc
  intro c s hs later inner P Q hc
  have later : FollowsLater p s := fun c t P Q hlt hc ht =>
    later c t hlt ht.inside P Q hc ht
  cases hc with
  | expression => exact follows_expression later (inner .unary (by simp [Call.rank]) _ _ .unary)
  | operators =>
    exact follows_operators later fun op hop hl =>
      inner (.operator op) (by simp [Call.rank]) _ _ (.operator hop hl)
  | operator hop hl => exact follows_operator later hop hl
  | unary =>
    exact follows_unary later fun hsign => inner .primary (by decide) _ _ (.primary hsign)
  | collations => exact follows_collations later hp
  | primary hsign =>
    exact follows_primary later hsign fun hcase => inner .case_ (by decide) _ _ (.case_ hcase)
  | arguments => exact follows_arguments later
  | expressions hf =>
    exact follows_expressions later hf (inner (.expression 1) (by decide) _ _ .expression)
  | moreExpressions hf => exact follows_moreExpressions later hf
  | case_ hcase => exact follows_case later hcase
  | alternatives => exact follows_alternatives later

end TreeQuery.Query.Descent
