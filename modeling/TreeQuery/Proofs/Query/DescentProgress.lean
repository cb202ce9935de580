import TreeQuery.Proofs.Query.Descent
import TreeQuery.Proofs.Query.ExprRun

/-!
# The descent goes forward

Every call of the descent ends, for every list of lexemes and from every index in it. A call that
succeeds ends behind the place where it began, and none leaves the lexemes. This is one induction
over the lexemes that are left, and over the calls that are made before the first lexeme is read
(`call_induction`). `Forward` is what every computation keeps, `Ends` adds how far it comes.

Results:
* `call_ends`: calls end, go forward and record the unary operators that they pass, in order.
* `covers_statement`: the reading of a statement ends, and writes down intervals of lexemes that are
  not empty and lie in the list.
-/

namespace TreeQuery.Query.Descent

open Grammar (isSign)

variable {α β : Type} {p : Input} {s t u : Cursor} {i j : Nat}

/-! ## Running a computation -/

section Exec

variable {m : Reader α} {f : α → Reader β} {a : α} {h : Halt}

theorem exec_bind : exec (m >>= f) s = (exec m s).bind fun r =>
    match r with
    | (.ok a, t) => exec (f a) t
    | (.error h, t) => some (.error h, t) := by
  simp only [exec, ExceptT.run_bind, StateT.run_bind]
  cases m.run.run s with
  | none => rfl
  | some r => obtain ⟨_ | _, t⟩ := r <;> rfl

theorem exec_bind_ok (he : exec m s = some (.ok a, t)) : exec (m >>= f) s = exec (f a) t := by
  rw [exec_bind, he, Option.bind_some]

theorem exec_bind_error (he : exec m s = some (.error h, t)) :
    exec (m >>= f) s = some (.error h, t) := by
  rw [exec_bind, he, Option.bind_some]

theorem exec_pure (a : α) : exec (pure a : Reader α) s = some (.ok a, s) := rfl

theorem exec_get : exec (get : Reader Cursor) s = some (.ok s, s) := rfl

theorem exec_ofExcept (r : Except Halt α) :
    exec (MonadExcept.ofExcept r : Reader α) s = some (r, s) := by
  cases r <;> rfl

theorem exec_refuse (wanted : String) :
    exec (refuse p wanted : Reader α) s =
      some (.error (.refused (p.complaint s.index wanted)), s) := rfl

/-- The cursor `k` lexemes farther. -/
def Cursor.advance (s : Cursor) (k : Nat) : Cursor := { s with index := s.index + k }

/-- The cursor past a unary operator. -/
def Cursor.takeUnary (s : Cursor) : Cursor :=
  { s with index := s.index + 1, unary := s.unary ++ [s.index] }

theorem exec_advance (k : Nat) : exec (advance k) s = some (.ok (), s.advance k) := rfl

theorem exec_consumeUnary : exec consumeUnary s = some (.ok (), s.takeUnary) := rfl

theorem exec_peek (k : Nat) : exec (peek p k) s = some (.ok (p.tokenAt (s.index + k)), s) := rfl

theorem exec_peekInfix : exec (peekInfix p) s = some (.ok (p.infixAt s.index), s) := rfl

theorem exec_peekIs (x : Token) :
    exec (peekIs p x) s = some (.ok (p.tokenAt s.index == some x), s) := rfl

theorem exec_consume (x : Token) : exec (consume p x) s =
    if p.tokenAt s.index = some x then some (.ok true, s.advance 1) else some (.ok false, s) := by
  rw [consume, exec_bind_ok (exec_peekIs x)]
  by_cases hx : p.tokenAt s.index = some x
  · rw [if_pos hx, if_pos (by simpa using hx), exec_bind_ok (exec_advance 1), exec_pure]
  · rw [if_neg hx, if_neg (by simpa using hx), exec_pure]

theorem exec_expect (x : Token) (wanted : String) : exec (expect p x wanted) s =
    if p.tokenAt s.index = some x then some (.ok (), s.advance 1)
    else some (.error (.refused (p.complaint s.index wanted)), s) := by
  rw [expect, exec_bind, exec_consume]
  split <;> rfl

theorem exec_peekIs_bind {g : Bool → Reader β} (x : Token) : exec (peekIs p x >>= g) s =
    if p.tokenAt s.index = some x then exec (g true) s else exec (g false) s := by
  rw [exec_bind_ok (exec_peekIs x)]
  by_cases hx : p.tokenAt s.index = some x
  · rw [if_pos hx, beq_iff_eq.mpr hx]
  · rw [if_neg hx, beq_eq_false_iff_ne.mpr hx]

theorem exec_consume_bind {g : Bool → Reader β} (x : Token) : exec (consume p x >>= g) s =
    if p.tokenAt s.index = some x then exec (g true) (s.advance 1) else exec (g false) s := by
  rw [exec_bind, exec_consume]
  split <;> rfl

theorem exec_expect_bind {g : Unit → Reader β} (x : Token) (wanted : String) :
    exec (expect p x wanted >>= g) s =
      if p.tokenAt s.index = some x then exec (g ()) (s.advance 1)
      else some (.error (.refused (p.complaint s.index wanted)), s) := by
  rw [exec_bind, exec_expect]
  split <;> rfl

end Exec

theorem lt_of_tokenAt {x : Token} (h : p.tokenAt i = some x) : i < p.lexemes.length := by
  obtain ⟨l, hl, -⟩ := Option.map_eq_some_iff.mp h
  exact (List.getElem?_eq_some_iff.mp hl).1

/-! ## Going forward -/

/-- Indices of unary operators from `i` to before `j`, each once and in order. -/
structure Prefixes (p : Input) (i j : Nat) (ks : List Nat) : Prop where
  ordered : ks.Pairwise (· < ·)
  within : ∀ k ∈ ks, i ≤ k ∧ k < j
  operator : ∀ k ∈ ks, ∃ x, p.tokenAt k = some x ∧ (x = .keyword .not_ ∨ isSign x)

namespace Prefixes

theorem nil : Prefixes p i j [] where
  ordered := .nil
  within := by simp
  operator := by simp

theorem append {k : Nat} {as bs : List Nat} (ha : Prefixes p i j as) (hb : Prefixes p j k bs)
    (hij : i ≤ j) (hjk : j ≤ k) : Prefixes p i k (as ++ bs) where
  ordered := List.pairwise_append.mpr ⟨ha.ordered, hb.ordered, fun a hA b hB =>
    Nat.lt_of_lt_of_le (ha.within a hA).2 (hb.within b hB).1⟩
  within x hx := by
    rcases List.mem_append.mp hx with hx | hx
    · exact ⟨(ha.within x hx).1, Nat.lt_of_lt_of_le (ha.within x hx).2 hjk⟩
    · exact ⟨Nat.le_trans hij (hb.within x hx).1, (hb.within x hx).2⟩
  operator x hx := (List.mem_append.mp hx).elim (ha.operator x) (hb.operator x)

end Prefixes

/-- An interval of lexemes that is not empty. -/
def Input.IsInterval (p : Input) (r : Nat × Nat) : Prop :=
  r.1 < r.2 ∧ r.2 ≤ p.lexemes.length

/-- **What every computation does to the cursor.** -/
structure Forward (p : Input) (s t : Cursor) : Prop where
  le : s.index ≤ t.index
  inside : t.index ≤ p.lexemes.length
  unary : ∃ ks, t.unary = s.unary ++ ks ∧ Prefixes p s.index t.index ks
  rendered : ∃ rs, t.rendered = s.rendered ++ rs ∧ ∀ r ∈ rs, p.IsInterval r

namespace Forward

theorem refl (hs : s.index ≤ p.lexemes.length) : Forward p s s where
  le := Nat.le_refl _
  inside := hs
  unary := ⟨[], by simp, .nil⟩
  rendered := ⟨[], by simp, by simp⟩

theorem trans (h : Forward p s t) (h' : Forward p t u) : Forward p s u where
  le := Nat.le_trans h.le h'.le
  inside := h'.inside
  unary := by
    obtain ⟨ks, hks, hin⟩ := h.unary
    obtain ⟨ks', hks', hin'⟩ := h'.unary
    exact ⟨ks ++ ks', by rw [hks', hks, List.append_assoc], hin.append hin' h.le h'.le⟩
  rendered := by
    obtain ⟨rs, hrs, hin⟩ := h.rendered
    obtain ⟨rs', hrs', hin'⟩ := h'.rendered
    refine ⟨rs ++ rs', by rw [hrs', hrs, List.append_assoc], fun r hr => ?_⟩
    exact (List.mem_append.mp hr).elim (hin r) (hin' r)

theorem advance {k : Nat} (h : s.index + k ≤ p.lexemes.length) : Forward p s (s.advance k) where
  le := Nat.le_add_right _ _
  inside := h
  unary := ⟨[], by simp [Cursor.advance], .nil⟩
  rendered := ⟨[], by simp [Cursor.advance], by simp⟩

theorem takeUnary {x : Token} (hx : p.tokenAt s.index = some x)
    (hunary : x = .keyword .not_ ∨ isSign x) : Forward p s s.takeUnary where
  le := Nat.le_succ _
  inside := lt_of_tokenAt hx
  unary := by
    refine ⟨[s.index], rfl, List.pairwise_singleton _ _, ?_, ?_⟩
    · simp [Cursor.takeUnary]
    · simpa using ⟨x, hx, hunary⟩
  rendered := ⟨[], by simp [Cursor.takeUnary], by simp⟩

end Forward

/-- **A computation ends**, and at the index `j` or farther if it succeeds. -/
def Ends (p : Input) (j : Nat) (m : Reader α) (s : Cursor) : Prop :=
  ∃ r t, exec m s = some (r, t) ∧ Forward p s t ∧ ∀ a, r = .ok a → j ≤ t.index

namespace Ends

variable {m : Reader α} {f : α → Reader β} {a : α}

theorem mono (h : Ends p i m s) (hij : j ≤ i) : Ends p j m s := by
  obtain ⟨r, t, he, hF, hi⟩ := h
  exact ⟨r, t, he, hF, fun a ha => Nat.le_trans hij (hi a ha)⟩

theorem of_pure (hs : s.index ≤ p.lexemes.length) (hj : j ≤ s.index) :
    Ends p j (pure a : Reader α) s :=
  ⟨_, _, exec_pure a, .refl hs, fun _ _ => hj⟩

theorem of_refuse (hs : s.index ≤ p.lexemes.length) (wanted : String) :
    Ends p j (refuse p wanted : Reader α) s :=
  ⟨_, _, exec_refuse wanted, .refl hs, fun _ h => nomatch h⟩

theorem of_advance {k : Nat} (h : s.index + k ≤ p.lexemes.length) :
    Ends p (s.index + k) (Descent.advance k) s :=
  ⟨_, _, exec_advance k, .advance h, fun _ _ => Nat.le_refl _⟩

theorem refuse_bind (hs : s.index ≤ p.lexemes.length) (wanted : String) :
    Ends p j ((refuse p wanted : Reader α) >>= f) s :=
  ⟨_, _, exec_bind_error (exec_refuse wanted), .refl hs, fun _ h => nomatch h⟩

theorem bind (h : Ends p i m s)
    (hf : ∀ a t, Forward p s t → i ≤ t.index → Ends p j (f a) t) : Ends p j (m >>= f) s := by
  obtain ⟨r, t, he, hF, hi⟩ := h
  cases r with
  | error h => exact ⟨_, _, exec_bind_error he, hF, fun _ h => nomatch h⟩
  | ok a =>
    obtain ⟨r', u, he', hF', hj⟩ := hf a t hF (hi a rfl)
    exact ⟨r', u, (exec_bind_ok he).trans he', hF.trans hF', hj⟩

/-- A computation that only looks ahead. -/
theorem look (he : exec m s = some (.ok a, s)) (h : Ends p j (f a) s) : Ends p j (m >>= f) s := by
  obtain ⟨r, t, he', hF, hj⟩ := h
  exact ⟨r, t, (exec_bind_ok he).trans he', hF, hj⟩

/-- A computation that moves the cursor and does nothing else. -/
theorem step (he : exec m s = some (.ok a, t)) (hF : Forward p s t) (h : Ends p j (f a) t) :
    Ends p j (m >>= f) s := by
  obtain ⟨r, u, he', hF', hj⟩ := h
  exact ⟨r, u, (exec_bind_ok he).trans he', hF.trans hF', hj⟩

section Tokens

variable {g : Bool → Reader β} {x : Token}

theorem peekIs_bind (hyes : p.tokenAt s.index = some x → Ends p j (g true) s)
    (hno : Ends p j (g false) s) : Ends p j (peekIs p x >>= g) s := by
  rw [Ends, exec_peekIs_bind]
  split
  · exact hyes (by assumption)
  · exact hno

theorem consume_bind (hyes : s.index < p.lexemes.length →
      Ends p j (g true) (s.advance 1))
    (hno : Ends p j (g false) s) :
    Ends p j (consume p x >>= g) s := by
  have he := exec_consume (p := p) (s := s) x
  by_cases hx : p.tokenAt s.index = some x
  · rw [if_pos hx] at he
    exact step he (.advance (lt_of_tokenAt hx)) (hyes (lt_of_tokenAt hx))
  · rw [if_neg hx] at he
    exact look he hno

theorem of_expect (hs : s.index ≤ p.lexemes.length) (wanted : String) :
    Ends p (s.index + 1) (expect p x wanted) s := by
  have he := exec_expect (p := p) (s := s) x wanted
  by_cases hx : p.tokenAt s.index = some x
  · rw [if_pos hx] at he
    exact ⟨_, _, he, .advance (lt_of_tokenAt hx), fun _ _ => Nat.le_refl _⟩
  · rw [if_neg hx] at he
    exact ⟨_, _, he, .refl hs, fun _ h => nomatch h⟩

theorem of_consumeName (hs : s.index ≤ p.lexemes.length) :
    Ends p s.index (consumeName p) s := by
  rw [consumeName]
  refine look exec_get ?_
  split
  · exact of_pure hs (Nat.le_refl _)
  · rename_i l hl
    have hlt : s.index < p.lexemes.length := (List.getElem?_eq_some_iff.mp hl).1
    split
    case h_4 => exact of_pure hs (Nat.le_refl _)
    all_goals
      cases htext : p.textOf l with
      | error h => exact ⟨_, _, exec_bind_error (exec_ofExcept _), .refl hs, fun _ h => nomatch h⟩
      | ok cs =>
        refine look (exec_ofExcept _) (step (exec_advance 1) (.advance hlt) ?_)
        exact of_pure hlt (Nat.le_succ _)

end Tokens

end Ends

/-! ## Calls -/

/-- How far a call comes at least: the loops may find nothing to read. -/
def Call.width : Call → Nat
  | operators _ | collations | moreExpressions | alternatives => 0
  | _ => 1

/-- What a call relies on: the operator of `Call.operator` is the one that comes next. -/
def Call.Due (p : Input) (i : Nat) : Call → Prop
  | operator op => p.infixAt i = some op
  | _ => True

/-- The calls that may be made at one index, the inner ones below the outer ones. -/
def Call.rank : Call → Nat
  | expressions => 4
  | expression _ => 3
  | unary => 2
  | primary | operators _ => 1
  | _ => 0

/-- **The induction over the calls of the descent**: a call makes others behind the place where it
begins, and there only those of a lower rank. -/
theorem call_induction {P : Call → Cursor → Prop}
    (step : ∀ c s, s.index ≤ p.lexemes.length →
      (∀ c' t, s.index < t.index → t.index ≤ p.lexemes.length → P c' t) →
      (∀ c', c'.rank < c.rank → P c' s) → P c s) :
    ∀ c s, s.index ≤ p.lexemes.length → P c s := by
  intro c s hs
  induction hw : 5 * (p.lexemes.length - s.index) + c.rank using Nat.strongRecOn
    generalizing c s with
  | ind w ih =>
    have hrank : ∀ c : Call, c.rank < 5 := fun c => by cases c <;> simp [Call.rank]
    refine step c s hs (fun c' t hlt ht => ih _ ?_ c' t ht rfl) fun c' hc => ih _ ?_ c' s hs rfl
    · have := hrank c'
      omega
    · omega

/-! ## Operators -/

namespace Infix

/-- The number of lexemes of an operator. -/
def width : Infix → Nat
  | in_ negated | between negated | like negated => 1 + negated.toNat
  | nullTest lexemes => lexemes
  | _ => 1

/-- The place of the automaton after an operator that the innermost of `frames` takes. -/
def enter (frames : List Frame) : Infix → Mode × List Frame
  | binary level => (.operand, .operators (level + 1) :: frames)
  | is_ => (.isOperand, .operators comparisonLevel :: frames)
  | in_ _ => (.inList, frames)
  | between _ => (.operand, .operators comparisonLevel :: .lowerBound :: frames)
  | like _ => (.operand, .operators comparisonLevel :: .pattern :: frames)
  | nullTest _ => (.end_, frames)

/-- An operator is one lexeme that is an operator of the automaton too. -/
def IsPlain (next : Option Token) (x : Token) (op : Infix) : Prop :=
  op.width = 1 ∧ ∃ o, Operates next x o ∧ o.level = op.level ∧ ∀ F, o.enter F = op.enter F

/-- An operator is a NOT and the operator that it negates. -/
def IsNegated (next : Option Token) (x : Token) (op : Infix) : Prop :=
  op.width = 2 ∧ x = .keyword .not_ ∧ op.level = equalityLevel ∧ negatable next ∧
    ∃ y, next = some y ∧ ∀ F next', Move F next' .negated y false (op.enter F).1 (op.enter F).2

theorem isNegated_of_not {next : Option Token} {op : Infix}
    (h : ofToken? next (.keyword .not_) = some op) : op.IsNegated next (.keyword .not_) := by
  simp only [ofToken?] at h
  split at h
  case h_1 =>
    obtain rfl := Option.some.inj h
    exact ⟨rfl, rfl, rfl, rfl, _, rfl, fun _ _ => .notIn⟩
  case h_2 =>
    obtain rfl := Option.some.inj h
    exact ⟨rfl, rfl, rfl, rfl, _, rfl, fun _ _ => .notBetween⟩
  case h_3 =>
    obtain rfl := Option.some.inj h
    exact ⟨rfl, rfl, rfl, rfl, _, rfl, fun _ _ => .notNull⟩
  case h_4 k _ _ _ =>
    split at h
    · rename_i hk
      obtain rfl := Option.some.inj h
      refine ⟨rfl, rfl, rfl, ?_, _, rfl, fun _ _ => .notLike ?_⟩
      · simp [negatable, hk]
      · rw [isLikeWord_keyword, hk]
    · cases h
  case h_5 => cases h

theorem isPlain_or_isNegated {next : Option Token} {x : Token} {op : Infix}
    (h : ofToken? next x = some op) : op.IsPlain next x ∨ op.IsNegated next x := by
  by_cases hnot : x = .keyword .not_
  · subst hnot
    exact .inr (isNegated_of_not h)
  left
  unfold ofToken? at h
  split at h
  case h_1 y =>
    obtain ⟨q, hq, rfl⟩ := Option.map_eq_some_iff.mp h
    exact ⟨rfl, _, .binary (by rw [binaryLevel_symbol, hq]), rfl, fun _ => rfl⟩
  case h_2 | h_3 =>
    obtain rfl := Option.some.inj h
    exact ⟨rfl, _, .binary rfl, rfl, fun _ => rfl⟩
  case h_4 =>
    obtain rfl := Option.some.inj h
    exact ⟨rfl, _, .is_, rfl, fun _ => rfl⟩
  case h_5 =>
    obtain rfl := Option.some.inj h
    exact ⟨rfl, _, .in_, rfl, fun _ => rfl⟩
  case h_6 =>
    obtain rfl := Option.some.inj h
    exact ⟨rfl, _, .between, rfl, fun _ => rfl⟩
  case h_7 =>
    obtain rfl := Option.some.inj h
    exact ⟨rfl, _, .isNull, rfl, fun _ => rfl⟩
  case h_8 =>
    obtain rfl := Option.some.inj h
    exact ⟨rfl, _, .notNull, rfl, fun _ => rfl⟩
  case h_9 => exact absurd rfl hnot
  case h_10 k _ _ _ _ _ _ _ _ =>
    split at h
    · rename_i hk
      obtain rfl := Option.some.inj h
      exact ⟨rfl, _, .like (by rw [isLikeWord_keyword, hk]), rfl, fun _ => rfl⟩
    · cases h
  case h_11 => cases h

/-- What is no operator of the descent is none of the automaton. -/
theorem operator_eq_none {next : Option Token} {x : Token} (h : ofToken? next x = none) :
    Operator.ofToken? next x = none := by
  cases x with
  | keyword k =>
    cases k
    case not_ =>
      rcases next with _ | (k | _ | _ | _ | _ | _ | _)
      case some.keyword => cases k <;> first | rfl | cases h
      all_goals rfl
    all_goals first | rfl | cases h
  | symbol y => cases y <;> first | rfl | cases h
  | _ => rfl

end Infix

/-- The lexemes of an operator are there. -/
theorem width_of_infixAt {op : Infix} (h : p.infixAt i = some op) :
    0 < op.width ∧ i + op.width ≤ p.lexemes.length := by
  obtain ⟨x, hx, hop⟩ := Option.bind_eq_some_iff.mp h
  have hlt := lt_of_tokenAt hx
  rcases Infix.isPlain_or_isNegated hop with ⟨hwidth, -⟩ | ⟨hwidth, -, -, -, y, hy, -⟩
  · omega
  · have := lt_of_tokenAt hy
    omega

/-! ## Calls that go forward -/

/-- The calls that are made behind the cursor come to an end. -/
def EndLater (p : Input) (s : Cursor) : Prop :=
  ∀ (c : Call) (t : Cursor), s.index < t.index → t.index ≤ p.lexemes.length → c.Due p t.index →
    Ends p (t.index + c.width) (call p c) t

theorem EndLater.call (h : EndLater p s) {c : Call} (ht : s.index + 1 ≤ t.index)
    (hle : t.index ≤ p.lexemes.length) (hc : c.Due p t.index) :
    Ends p (s.index + 1) (call p c) t :=
  (h c t ht hle hc).mono (Nat.le_trans ht (Nat.le_add_right _ _))

section Step

variable (later : EndLater p s)

include later

theorem ends_expression
    (hunary : Ends p (s.index + 1) (call p .unary) s) (least : Nat) :
    Ends p (s.index + 1) (call p (.expression least)) s := by
  have hoperators : ∀ t : Cursor, t.index ≤ p.lexemes.length → s.index + 1 ≤ t.index →
      Ends p (s.index + 1) (call p (.operators least)) t :=
    fun t hle ht => later.call ht hle trivial
  rw [call]
  refine .peekIs_bind (fun hnot => ?_) (hunary.bind fun _ t hF ht => hoperators t hF.inside ht)
  refine .step exec_consumeUnary (.takeUnary hnot (.inl rfl)) ?_
  refine .bind (later.call (Nat.le_refl _) (lt_of_tokenAt hnot) trivial) fun _ t hF ht => ?_
  exact hoperators t hF.inside ht

theorem ends_operators (hs : s.index ≤ p.lexemes.length)
    (hoperator : ∀ op, p.infixAt s.index = some op →
      Ends p (s.index + 1) (call p (.operator op)) s) (least : Nat) :
    Ends p s.index (call p (.operators least)) s := by
  rw [call]
  refine .look exec_peekInfix ?_
  cases hop : p.infixAt s.index with
  | none => exact .of_pure hs (Nat.le_refl _)
  | some op =>
    by_cases hlevel : op.level < least
    · simp only [if_pos hlevel]
      exact .of_pure hs (Nat.le_refl _)
    · simp only [if_neg hlevel]
      refine Ends.mono (i := s.index + 1) ?_ (Nat.le_succ _)
      exact (hoperator op hop).bind fun _ t hF ht => later.call ht hF.inside trivial

theorem ends_operator {op : Infix} (hop : p.infixAt s.index = some op) :
    Ends p (s.index + 1) (call p (.operator op)) s := by
  obtain ⟨hpos, hwidth⟩ := width_of_infixAt hop
  cases op with
  | binary level =>
    rw [call]
    refine .step (exec_advance 1) (.advance hwidth) ?_
    exact later.call (Nat.le_refl _) hwidth trivial
  | is_ =>
    rw [call]
    refine .step (exec_advance 1) (.advance hwidth) (.consume_bind (fun hlt => ?_) ?_)
    · exact later.call (Nat.le_succ _) hlt trivial
    · exact later.call (Nat.le_refl _) hwidth trivial
  | in_ negated =>
    rw [call]
    refine .step (exec_advance _) (.advance hwidth) ?_
    refine (Ends.of_expect hwidth _).bind fun _ t hF ht => ?_
    have ht' : s.index + 1 ≤ t.index := by
      simp only [Cursor.advance] at ht
      omega
    refine .consume_bind (fun hlt => ?_) ?_
    · exact .of_pure hlt (Nat.le_trans ht' (Nat.le_succ _))
    · refine .bind (later.call ht' hF.inside trivial) fun _ u hF' hu => ?_
      exact (Ends.of_expect hF'.inside _).mono (Nat.le_trans hu (Nat.le_succ _))
  | between negated =>
    rw [call]
    refine .step (exec_advance _) (.advance hwidth) ?_
    refine .bind (later.call (Nat.add_le_add_left hpos _) hwidth trivial) fun _ t hF ht => ?_
    refine (Ends.of_expect hF.inside _).bind fun _ u hF' hu => ?_
    exact later.call (Nat.le_trans ht (Nat.le_trans (Nat.le_succ _) hu)) hF'.inside trivial
  | like negated =>
    rw [call]
    refine .step (exec_advance _) (.advance hwidth) ?_
    refine .bind (later.call (Nat.add_le_add_left hpos _) hwidth trivial) fun _ t hF ht => ?_
    refine .consume_bind (fun hlt => ?_) (.of_pure hF.inside ht)
    exact later.call (Nat.le_trans ht (Nat.le_succ _)) hlt trivial
  | nullTest lexemes =>
    rw [call]
    exact (Ends.of_advance hwidth).mono (Nat.add_le_add_left hpos _)

theorem ends_unary
    (hprimary : Ends p (s.index + 1) (call p .primary) s) :
    Ends p (s.index + 1) (call p .unary) s := by
  have hcollations : ∀ (m : Reader Unit) (t : Cursor), Ends p (s.index + 1) m t →
      Ends p (s.index + 1) (m >>= fun _ => call p .collations) t :=
    fun m t hm => hm.bind fun _ u hF hu => later.call hu hF.inside trivial
  have hsign : ∀ x, p.tokenAt s.index = some x → isSign x → Ends p (s.index + 1)
      (do consumeUnary; call p .unary; call p .collations) s := fun x hx hsign =>
    .step exec_consumeUnary (.takeUnary hx (.inr hsign))
      (hcollations _ _ (later.call (Nat.le_refl _) (lt_of_tokenAt hx) trivial))
  rw [call]
  refine .look (exec_peek 0) ?_
  rw [Nat.add_zero]
  split
  case h_4 => exact hcollations _ _ hprimary
  all_goals exact hsign _ (by assumption) rfl

theorem ends_collations (hs : s.index ≤ p.lexemes.length) :
    Ends p s.index (call p .collations) s := by
  rw [call]
  refine .consume_bind (fun hlt => ?_) (.of_pure hs (Nat.le_refl _))
  refine .bind (.of_consumeName hlt) fun name t hF ht => ?_
  cases name with
  | none => exact .refuse_bind hF.inside _
  | some name =>
    exact Ends.mono (i := s.index + 1) (later.call ht hF.inside trivial) (Nat.le_succ _)

theorem ends_arguments (hs : s.index ≤ p.lexemes.length) :
    Ends p (s.index + 1) (call p .arguments) s := by
  rw [call]
  refine (Ends.of_expect hs _).bind fun _ t hF ht => ?_
  have hclose : ∀ u : Cursor, u.index ≤ p.lexemes.length → s.index + 1 ≤ u.index →
      Ends p (s.index + 1)
        (expect p (.symbol .closeParen) "')' closing call") u :=
    fun u hle hu => (Ends.of_expect hle _).mono (Nat.le_trans hu (Nat.le_succ _))
  have hexpressions : ∀ u : Cursor, u.index ≤ p.lexemes.length → s.index + 1 ≤ u.index →
      Ends p (s.index + 1)
        (do call p .expressions; expect p (.symbol .closeParen) "')' closing call") u :=
    fun u hle hu => .bind (later.call hu hle trivial) fun _ v hF hv => hclose v hF.inside hv
  refine .consume_bind (fun hlt => ?_) ?_
  · refine .look (exec_peekIs _) ?_
    exact hclose _ hlt (Nat.le_trans ht (Nat.le_succ _))
  · refine .peekIs_bind (fun hlt => hclose t hF.inside ht) ?_
    refine .consume_bind (fun hlt => ?_) ?_
    · exact hexpressions _ hlt (Nat.le_trans ht (Nat.le_succ _))
    · exact hexpressions t hF.inside ht

theorem ends_primary (hs : s.index ≤ p.lexemes.length)
    (hcase : Ends p (s.index + 1) (call p .case_) s) :
    Ends p (s.index + 1) (call p .primary) s := by
  rw [call]
  refine .look (exec_peek 0) ?_
  rw [Nat.add_zero]
  cases hx : p.tokenAt s.index with
  | none => exact .of_refuse hs _
  | some x =>
    have hlt := lt_of_tokenAt hx
    have hnext : Forward p s (s.advance 1) := .advance hlt
    simp only
    split
    case h_8 =>
      refine .step (exec_advance 1) hnext (.consume_bind (fun hdot => ?_) (.peekIs_bind ?_ ?_))
      · exact .mono (.of_expect (s := (s.advance 1).advance 1) hdot _)
          (Nat.le_add_right (s.index + 1) 2)
      · exact fun _ => later.call (Nat.le_refl _) hlt trivial
      · exact .of_pure hlt (Nat.le_refl _)
    case h_9 =>
      refine .step (exec_advance 1) hnext ?_
      refine .bind (later.call (Nat.le_refl _) hlt trivial) fun _ t hF ht => ?_
      exact (Ends.of_expect hF.inside _).mono (Nat.le_trans ht (Nat.le_succ _))
    case h_10 => exact hcase
    case h_11 =>
      refine .look (exec_peek 1) ?_
      split
      · exact .step (exec_advance 1) hnext (later.call (Nat.le_refl _) hlt trivial)
      · exact .of_refuse hs _
    case h_12 => exact .of_refuse hs _
    all_goals exact .of_advance hlt

theorem ends_expressions
    (hfirst : Ends p (s.index + 1) (call p (.expression 1)) s) :
    Ends p (s.index + 1) (call p .expressions) s := by
  rw [call_expressions]
  exact hfirst.bind fun _ t hF ht => later.call ht hF.inside trivial

theorem ends_moreExpressions (hs : s.index ≤ p.lexemes.length) :
    Ends p s.index (call p .moreExpressions) s := by
  rw [call]
  refine .consume_bind (fun hlt => ?_) (.of_pure hs (Nat.le_refl _))
  refine .mono (i := s.index + 1) ?_ (Nat.le_succ _)
  refine .bind (later.call (Nat.le_refl _) hlt trivial) fun _ t hF ht => ?_
  exact later.call ht hF.inside trivial

theorem ends_alternatives (hs : s.index ≤ p.lexemes.length) :
    Ends p s.index (call p .alternatives) s := by
  rw [call]
  refine .consume_bind (fun hlt => ?_) (.of_pure hs (Nat.le_refl _))
  refine .mono (i := s.index + 1) ?_ (Nat.le_succ _)
  refine .bind (later.call (Nat.le_refl _) hlt trivial) fun _ t hF ht => ?_
  refine .bind (.of_expect hF.inside _) fun _ u hF' hu => ?_
  have hu' : s.index + 1 ≤ u.index := Nat.le_trans ht (Nat.le_trans (Nat.le_succ _) hu)
  refine .bind (later.call hu' hF'.inside trivial) fun _ v hF'' hv => ?_
  exact later.call hv hF''.inside trivial

/-- The end of a CASE, from its first WHEN on. -/
theorem ends_caseEnd (ht : s.index + 1 ≤ t.index) (hle : t.index ≤ p.lexemes.length) :
    Ends p (s.index + 1) (do
      call p .alternatives
      if ← consume p (.keyword .else_) then
        call p (.expression 1)
      expect p (.keyword .end_) "END closing CASE") t := by
  have hend : ∀ u : Cursor, s.index + 1 ≤ u.index → u.index ≤ p.lexemes.length →
      Ends p (s.index + 1)
        (expect p (.keyword .end_) "END closing CASE") u :=
    fun u hu hle => (Ends.of_expect hle _).mono (Nat.le_trans hu (Nat.le_succ _))
  refine .bind (later.call ht hle trivial) fun _ u hF hu => ?_
  refine .consume_bind (fun hlt => ?_) (hend u hu hF.inside)
  refine .bind (later.call (Nat.le_trans hu (Nat.le_succ _)) hlt trivial) fun _ v hF' hv => ?_
  exact hend v hv hF'.inside

theorem ends_case (hs : s.index ≤ p.lexemes.length) :
    Ends p (s.index + 1) (call p .case_) s := by
  rw [call]
  refine .bind (.of_expect hs _) fun _ t hF ht => ?_
  have hwhen : ∀ u : Cursor, s.index + 1 ≤ u.index → u.index ≤ p.lexemes.length →
      Ends p (s.index + 1) (do
        unless ← peekIs p (.keyword .when_) do
          refuse p "WHEN"
        call p .alternatives
        if ← consume p (.keyword .else_) then
          call p (.expression 1)
        expect p (.keyword .end_) "END closing CASE") u := fun u hu hle =>
    .peekIs_bind (fun _ => ends_caseEnd later hu hle) (.refuse_bind hle _)
  refine .peekIs_bind (fun _ => hwhen t ht hF.inside) ?_
  refine .bind (later.call ht hF.inside trivial) fun _ u hF' hu => ?_
  exact hwhen u hu hF'.inside

end Step

/-- **Every call comes to an end.** -/
theorem call_ends (c : Call) (s : Cursor) (hs : s.index ≤ p.lexemes.length)
    (hc : c.Due p s.index) :
    Ends p (s.index + c.width) (call p c) s := by
  refine call_induction (P := fun c s => c.Due p s.index →
    Ends p (s.index + c.width) (call p c) s) ?_ c s hs hc
  intro c s hs later inner hc
  have later : EndLater p s := fun c t hlt hle hc => later c t hlt hle hc
  cases c with
  | expression least =>
    exact ends_expression later (inner .unary (by simp [Call.rank]) trivial) least
  | operators least =>
    refine ends_operators later hs (fun op hop => ?_) least
    exact inner (.operator op) (by simp [Call.rank]) hop
  | operator op => exact ends_operator later hc
  | unary => exact ends_unary later (inner .primary (by decide) trivial)
  | collations => exact ends_collations later hs
  | primary => exact ends_primary later hs (inner .case_ (by decide) trivial)
  | arguments => exact ends_arguments later hs
  | expressions => exact ends_expressions later (inner (.expression 1) (by decide) trivial)
  | moreExpressions => exact ends_moreExpressions later hs
  | case_ => exact ends_case later hs
  | alternatives => exact ends_alternatives later hs

/-! ## Statements -/

/-- What a part of a statement does, wherever in the lexemes it is read. -/
def Covers (p : Input) (width : Nat) (m : Reader α) : Prop :=
  ∀ s : Cursor, s.index ≤ p.lexemes.length → Ends p (s.index + width) m s

theorem Ends.of_render (hij : p.IsInterval (i, j)) (hs : s.index ≤ p.lexemes.length) :
    Ends p s.index (render p i j) s := by
  have hF : Forward p s { s with rendered := s.rendered ++ [(i, j)] } :=
    { Forward.refl hs with rendered := ⟨[(i, j)], rfl, by simpa using hij⟩ }
  refine .step (t := { s with rendered := s.rendered ++ [(i, j)] }) rfl hF (.look exec_get ?_)
  exact ⟨_, _, exec_ofExcept _, .refl hs, fun _ _ => Nat.le_refl _⟩

theorem covers_fragment : Covers p 1 (fragment p) := by
  intro s hs
  refine .look exec_get (.bind (call_ends (.expression 1) s hs trivial) fun _ t hF ht => ?_)
  exact .look exec_get ((Ends.of_render ⟨ht, hF.inside⟩ hF.inside).mono ht)

theorem covers_direction : Covers p 0 (direction p) := by
  intro s hs
  refine .consume_bind (fun hlt => ?_) (.consume_bind (fun hlt => ?_) ?_)
  · exact .of_pure hlt (Nat.le_succ _)
  · exact .of_pure hlt (Nat.le_succ _)
  · exact .of_pure hs (Nat.le_refl _)

theorem covers_orderTerm : Covers p 1 (orderTerm p) := by
  intro s hs
  refine .look exec_get (.bind (call_ends (.expression 1) s hs trivial) fun _ t hFt ht => ?_)
  refine .bind (covers_direction t hFt.inside) fun _ u hFu hu => .look exec_get ?_
  have hlt : s.index < u.index := Nat.lt_of_lt_of_le ht hu
  exact (Ends.of_render ⟨hlt, hFu.inside⟩ hFu.inside).mono hlt

theorem covers_separated {piece : Reader α} (h : Covers p 1 piece) :
    Covers p 1 (separated p piece) := by
  intro s hs
  induction hn : p.lexemes.length - s.index using Nat.strongRecOn generalizing s with
  | ind n ih =>
    rw [separated]
    refine .bind (h s hs) fun a t hF ht => ?_
    refine .consume_bind (fun hlt => ?_) (.of_pure hF.inside ht)
    refine .bind (ih _ ?_ _ hlt rfl) fun as u hF' hu => .of_pure hF'.inside ?_
    · simp only [Cursor.advance]
      omega
    · simp only [Cursor.advance] at hu
      omega

theorem covers_columnAlias : Covers p 0 (columnAlias p) := by
  intro s hs
  refine .consume_bind (fun hlt => ?_) (.peekIs_bind (fun _ => .of_consumeName hs) ?_)
  · refine .bind (.of_consumeName hlt) fun name t hF ht => ?_
    cases name with
    | none => exact .of_refuse hF.inside _
    | some name => exact .of_pure hF.inside (Nat.le_of_succ_le ht)
  · exact .of_pure hs (Nat.le_refl _)

theorem covers_column : Covers p 1 (column p) := by
  intro s hs
  refine .consume_bind (fun hlt => .of_pure hlt (Nat.le_refl _)) ?_
  refine .bind (covers_fragment s hs) fun words t hF ht => ?_
  refine .bind (covers_columnAlias t hF.inside) fun name u hF' hu => ?_
  exact .of_pure hF'.inside (Nat.le_trans ht hu)

theorem covers_quantifier : Covers p 0 (quantifier p) := by
  intro s hs
  refine .consume_bind (fun hlt => ?_) (.consume_bind (fun hlt => ?_) ?_)
  · exact .of_pure hlt (Nat.le_succ _)
  · exact .of_pure hlt (Nat.le_succ _)
  · exact .of_pure hs (Nat.le_refl _)

theorem covers_sourcePath : Covers p 0 (sourcePath p) := by
  intro s hs
  refine .look (exec_peek 0) ?_
  rw [Nat.add_zero]
  cases hx : p.tokenAt s.index with
  | none => exact .of_refuse hs _
  | some x =>
    have hlt := lt_of_tokenAt hx
    cases x with
    | source path =>
      exact .step (exec_advance 1) (.advance hlt) (.of_pure hlt (Nat.le_succ _))
    | _ => exact .of_refuse hs _

theorem covers_fragmentAfter (k : Keyword) : Covers p 0 (fragmentAfter p k) := by
  intro s hs
  refine .consume_bind (fun hlt => ?_) (.of_pure hs (Nat.le_refl _))
  refine .bind (covers_fragment _ hlt) fun words t hF ht => .of_pure hF.inside ?_
  exact Nat.le_trans (Nat.le_add_right _ 2) ht

theorem covers_grouping : Covers p 0 (grouping p) := by
  intro s hs
  refine .consume_bind (fun hlt => ?_) (.of_pure hs (Nat.le_refl _))
  refine .bind (.of_expect (s := s.advance 1) hlt _) fun _ t hF ht => ?_
  refine .bind (covers_separated covers_fragment t hF.inside) fun terms u hFu hu => ?_
  refine .bind (covers_fragmentAfter .having u hFu.inside) fun having v hFv hv => ?_
  refine .of_pure hFv.inside ?_
  simp only [Cursor.advance] at ht
  omega

theorem covers_ordering : Covers p 0 (ordering p) := by
  intro s hs
  refine .consume_bind (fun hlt => ?_) (.of_pure hs (Nat.le_refl _))
  refine .bind (.of_expect (s := s.advance 1) hlt _) fun _ t hF ht => ?_
  refine (covers_separated covers_orderTerm t hF.inside).mono ?_
  simp only [Cursor.advance] at ht
  omega

theorem covers_limits : Covers p 0 (limits p) := by
  intro s hs
  refine .consume_bind (fun hlt => ?_) (.of_pure hs (Nat.le_refl _))
  refine .bind (covers_fragment _ hlt) fun first t hF ht => ?_
  have ht' : s.index ≤ t.index := Nat.le_trans (Nat.le_add_right _ 2) ht
  have hsecond : ∀ m : Fragment → Option Fragment × Option Fragment,
      t.index < p.lexemes.length → Ends p s.index
        (do return m (← fragment p)) (t.advance 1) := fun m hlt =>
    .bind (covers_fragment _ hlt) fun second u hFu hu =>
      .of_pure hFu.inside (Nat.le_trans ht' (Nat.le_trans (Nat.le_add_right _ 2) hu))
  refine .consume_bind (hsecond _) (.consume_bind (hsecond _) ?_)
  exact .of_pure hF.inside ht'

theorem covers_clauses (path : String) (distinct : Bool) (columns : List (Column Fragment)) :
    Covers p 0 (clauses p path distinct columns) := by
  intro s hs
  refine .bind (covers_fragmentAfter .where_ s hs) fun predicate t hFt ht => ?_
  refine .bind (covers_grouping t hFt.inside) fun groups u hFu hu => ?_
  refine .bind (covers_ordering u hFu.inside) fun orderBy v hFv hv => ?_
  refine .bind (covers_limits v hFv.inside) fun rows w hFw hw => .of_pure hFw.inside ?_
  omega

theorem covers_atEnd : Covers p 0 (atEnd p) := by
  intro s hs
  refine .look exec_get ?_
  split
  · exact ⟨_, _, rfl, .refl hs, fun _ h => nomatch h⟩
  · exact .of_pure hs (Nat.le_refl _)

/-- **The reading of a statement comes to an end.** -/
theorem covers_statement : Covers p 0 (statement p) := by
  intro s hs
  refine .bind (.of_expect hs _) fun _ t hFt ht => ?_
  refine .bind (covers_quantifier t hFt.inside) fun distinct u hFu hu => ?_
  refine .bind (covers_separated covers_column u hFu.inside) fun columns v hFv hv => ?_
  refine .bind (covers_sourcePath v hFv.inside) fun path w hFw hw => ?_
  refine .bind (covers_clauses path distinct columns w hFw.inside) fun st x hFx hx => ?_
  refine .bind (covers_atEnd x hFx.inside) fun _ y hFy hy => .of_pure hFy.inside ?_
  omega

end TreeQuery.Query.Descent
