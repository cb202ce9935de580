import TreeQuery.Proofs.Query.DescentProgress
import TreeQuery.Query.Reading

/-!
# Agreement of the descent and the automaton

The descent and the automaton of `Place` read the same lexemes in their own ways. Here is what it
means that they agree, and how the parts of an agreement fit together.

A computation of the descent `Agrees` with the automaton if what the automaton makes of the lexemes
before it is what it makes of the rest of them after it, and if the automaton refuses what the
computation refuses, in the same words. Inside an expression the automaton `Follows` a computation
from one place to another: the lexemes between them are words of the fragment that is being read.

A look ahead of the descent is no step of the automaton. It takes one of two places for the other
that read the next token in the same way (`Place.Alike`).
-/

namespace TreeQuery.Query

open Grammar (isNaming isSign)

/-! ## Places that read the next token in the same way -/

section Places

variable {x next : Option Token} {F : List Frame}

/-- A place asks for something else than the token that comes next, or than the end. -/
def Place.Rejects (place : Place) (x next : Option Token) (e : Expected) : Prop :=
  match x with
  | some x => place.step x next = .error e
  | none => place.finish = .error e

/-- Two places read the token that comes next, or the end, in the same way. -/
def Place.Alike (x next : Option Token) (place place' : Place) : Prop :=
  match x with
  | some x => place.step x next = place'.step x next
  | none => place.finish = place'.finish

theorem Place.Rejects.intro {place : Place} {e : Expected}
    (hfinish : x = none → place.finish = .error e)
    (hstep : ∀ t, x = some t → place.step t next = .error e) : place.Rejects x next e := by
  cases x with
  | none => exact hfinish rfl
  | some t => exact hstep t rfl

theorem Place.Alike.intro {place place' : Place} (hfinish : x = none → place.finish = place'.finish)
    (hstep : ∀ t, x = some t → place.step t next = place'.step t next) :
    Place.Alike x next place place' := by
  cases x with
  | none => exact hfinish rfl
  | some t => exact hstep t rfl

/-- A place inside an expression, whatever clause that is in. -/
abbrev Spot : Type := Mode × List Frame

namespace Spot

variable {P Q : Spot}

def within (P : Spot) (c : Clause) : Place := .expr c P.1 P.2

def Rejects (P : Spot) (x next : Option Token) (e : Expected) : Prop :=
  ∀ c, (P.within c).Rejects x next e

def Alike (x next : Option Token) (P Q : Spot) : Prop :=
  ∀ c, Place.Alike x next (P.within c) (Q.within c)

theorem Alike.symm (h : Alike x next P Q) : Alike x next Q P := by
  intro c
  cases x <;> exact (h c).symm

end Spot

theorem ne_of_ne_some {t y : Token} (hx : x ≠ some y) (ht : x = some t) : t ≠ y :=
  fun h => hx (ht.trans (congrArg some h))

theorem alike_signed (hx : x ≠ some (.keyword .not_)) :
    Spot.Alike x next (.operand, F) (.signed, F) := by
  refine fun c => .intro (fun _ => rfl) ?_
  rintro t rfl
  show operandStep c F true t next = operandStep c F false t next
  unfold operandStep
  split <;> first | rfl | exact absurd rfl hx

theorem alike_isOperand (hx : x ≠ some (.keyword .not_)) :
    Spot.Alike x next (.isOperand, F) (.operand, F) :=
  fun _ => .intro (fun _ => rfl) fun _ ht => if_neg (ne_of_ne_some hx ht)

theorem alike_item (hx : x ≠ some (.symbol .closeParen)) :
    Spot.Alike x next (.inItems, F) (.operand, .operators 1 :: .list :: F) :=
  fun _ => .intro (fun _ => rfl) fun _ ht => if_neg (ne_of_ne_some hx ht)

theorem alike_argument (hstar : x ≠ some (.symbol .star))
    (hclose : x ≠ some (.symbol .closeParen)) (hdistinct : x ≠ some (.keyword .distinct)) :
    Spot.Alike x next (.argumentList, F) (.operand, .operators 1 :: .arguments :: F) :=
  fun _ => .intro (fun _ => rfl) fun _ ht =>
    (if_neg (ne_of_ne_some hstar ht)).trans
      ((if_neg (ne_of_ne_some hclose ht)).trans (if_neg (ne_of_ne_some hdistinct ht)))

theorem alike_subject (hx : x ≠ some (.keyword .when_)) :
    Spot.Alike x next (.case_, F) (.operand, .operators 1 :: .caseSubject :: F) :=
  fun _ => .intro (fun _ => rfl) fun _ ht => if_neg (ne_of_ne_some hx ht)

theorem alike_firstWhen :
    Spot.Alike (some (.keyword .when_)) next (.case_, F) (.end_, .caseResult :: F) :=
  fun _ => rfl

theorem alike_subjectEnd :
    Spot.Alike (some (.keyword .when_)) next (.end_, .caseSubject :: F) (.end_, .caseResult :: F) :=
  fun _ => rfl

theorem alike_call : Spot.Alike (some (.symbol .openParen)) next (.name, F) (.call, F) :=
  fun _ => rfl

theorem alike_name (hdot : x ≠ some (.symbol .dot)) (hopen : x ≠ some (.symbol .openParen)) :
    Spot.Alike x next (.name, F) (.operandEnd, F) :=
  fun _ => .intro (fun _ => rfl) fun _ ht =>
    (if_neg (ne_of_ne_some hdot ht)).trans (if_neg (ne_of_ne_some hopen ht))

theorem alike_operandEnd (hx : x ≠ some (.keyword .collate)) :
    Spot.Alike x next (.operandEnd, F) (.end_, F) :=
  fun _ => .intro (fun _ => rfl) fun _ ht => if_neg (ne_of_ne_some hx ht)

/-- A frame that the next token passes may as well be closed. -/
theorem alike_end {f : Frame} (hf : f.isLoose) (hx : ∀ t, x = some t → Passes next t f) :
    Spot.Alike x next (.end_, f :: F) (.end_, F) := by
  refine fun c => .intro (fun _ => ?_) fun t ht => ?_
  · cases f with
    | operators | pattern => rfl
    | _ => cases hf
  · show afterOperand c (f :: F) t next = afterOperand c F t next
    rw [afterOperand, afterOperand, resume_passes (hx t ht)]

theorem alike_pattern (hx : x ≠ some (.keyword .escape)) :
    Spot.Alike x next (.end_, .pattern :: F) (.end_, F) :=
  alike_end rfl fun _ ht => ne_of_ne_some hx ht

/-- An operand ends where the descent finds no operator of at least its level. -/
theorem alike_operators {least : Nat}
    (h : ∀ op, x.bind (Descent.Infix.ofToken? next) = some op → op.level < least) :
    Spot.Alike x next (.end_, .operators least :: F) (.end_, F) := by
  refine alike_end rfl ?_
  rintro t rfl o ho
  rw [← ofToken?_eq_some_iff] at ho
  cases hop : Descent.Infix.ofToken? next t with
  | none => exact nomatch (Descent.Infix.operator_eq_none hop).symm.trans ho
  | some op =>
    have hlevel := h op hop
    rcases Descent.Infix.isPlain_or_isNegated hop with
      ⟨-, o', ho', ho'level, -⟩ | ⟨-, rfl, hoplevel, hn, -⟩
    · obtain rfl := Option.some.inj ((ofToken?_eq_some_iff.mpr ho').symm.trans ho)
      rwa [ho'level]
    · obtain rfl := Option.some.inj ((ofToken?_eq_some_iff.mpr (.negation hn)).symm.trans ho)
      rwa [hoplevel] at hlevel

theorem rejects_signed
    (hx : ∀ t, x = some t → ∀ c, operandStep c F false t next = .error .expression) :
    Spot.Rejects (.signed, F) x next .expression :=
  fun c => .intro (fun _ => rfl) fun t ht => hx t ht c

theorem rejects_member (hx : x ≠ some .ident) :
    Spot.Rejects (.member, F) x next .columnAfterDot :=
  fun _ => .intro (fun _ => rfl) fun _ ht => if_neg (ne_of_ne_some hx ht)

theorem rejects_call (hx : x ≠ some (.symbol .openParen)) :
    Spot.Rejects (.call, F) x next .openParen :=
  fun _ => .intro (fun _ => rfl) fun _ ht => if_neg (ne_of_ne_some hx ht)

theorem rejects_callEnd (hx : x ≠ some (.symbol .closeParen)) :
    Spot.Rejects (.callEnd, F) x next .closeCall :=
  fun _ => .intro (fun _ => rfl) fun _ ht => if_neg (ne_of_ne_some hx ht)

theorem rejects_inList (hx : x ≠ some (.symbol .openParen)) :
    Spot.Rejects (.inList, F) x next .openList :=
  fun _ => .intro (fun _ => rfl) fun _ ht => if_neg (ne_of_ne_some hx ht)

theorem rejects_collation (hx : ∀ t, x = some t → ¬ isNaming t) :
    Spot.Rejects (.collation, F) x next .collationName :=
  fun _ => .intro (fun _ => rfl) fun t ht => if_neg (isName_eq_isNaming t ▸ hx t ht)

/-- After an operand the innermost frame asks for what it needs. -/
theorem rejects_end {e : Expected} (h : ∀ next, resume x next F = .error e) :
    Spot.Rejects (.end_, F) x next e := by
  refine fun c => .intro (fun hx => ?_) fun t ht => ?_
  · show endAfterOperand c F = .error e
    rw [endAfterOperand, ← hx, h]
  · show afterOperand c F t next = .error e
    rw [afterOperand, ← ht, h]

end Places

namespace Descent

variable {α β σ : Type} {p : Input} {s t u : Cursor} {i j k : Nat}

/-! ## What the automaton makes of the lexemes -/

/-- What the automaton makes of the lexemes from an index on, an error in its wording. -/
def Input.outcome (p : Input) (place : Place) (d : Draft) (i : Nat) :
    Except String (Statement Fragment) :=
  (readFrom place d (p.lexemes.drop i)).mapError SyntaxError.message

section Outcome

variable {place place' : Place} {d : Draft} {l : Lexeme}

theorem Input.lexemes_drop (hl : p.lexemes[i]? = some l) :
    p.lexemes.drop i = l :: p.lexemes.drop (i + 1) := by
  obtain ⟨hi, rfl⟩ := List.getElem?_eq_some_iff.mp hl
  exact List.drop_eq_getElem_cons hi

theorem Input.head?_drop (p : Input) (i : Nat) :
    (p.lexemes.drop i).head?.map Lexeme.token = p.tokenAt i := by
  rw [List.head?_drop, Input.tokenAt]

theorem Input.drop_of_tokenAt_eq_none (h : p.tokenAt i = none) : p.lexemes.drop i = [] := by
  rw [Input.tokenAt, Option.map_eq_none_iff, List.getElem?_eq_none_iff] at h
  exact List.drop_eq_nil_of_le h

/-- The automaton reads one lexeme. -/
theorem outcome_step (place : Place) {step : Step} (hl : p.lexemes[i]? = some l)
    (h : place.step l.token (p.tokenAt (i + 1)) = .ok step) :
    p.outcome place d i =
      p.outcome step.place ((d.close step.ended).act l step.action) (i + 1) := by
  rw [Input.outcome, Input.lexemes_drop hl, readFrom, Input.head?_drop, h]
  rfl

theorem outcome_eq_of_alike (h : Place.Alike (p.tokenAt i) (p.tokenAt (i + 1)) place place') :
    p.outcome place d i = p.outcome place' d i := by
  cases hx : p.tokenAt i with
  | none =>
    rw [hx] at h
    rw [Input.outcome, Input.outcome, Input.drop_of_tokenAt_eq_none hx, readFrom, readFrom, h]
  | some x =>
    rw [hx] at h
    obtain ⟨l, hl, rfl⟩ := Option.map_eq_some_iff.mp hx
    rw [Input.outcome, Input.outcome, Input.lexemes_drop hl, readFrom, readFrom, Input.head?_drop,
      h]

theorem outcome_of_rejects {e : Expected} (he : e ≠ .nothing)
    (h : place.Rejects (p.tokenAt i) (p.tokenAt (i + 1)) e) :
    p.outcome place d i = .error (p.complaint i e.description) := by
  cases hx : p.tokenAt i with
  | none =>
    rw [hx] at h
    have hl : p.lexemes[i]? = none := Option.map_eq_none_iff.mp hx
    rw [Input.outcome, Input.drop_of_tokenAt_eq_none hx, readFrom, h, Input.complaint, hl]
    rfl
  | some x =>
    rw [hx] at h
    obtain ⟨l, hl, rfl⟩ := Option.map_eq_some_iff.mp hx
    rw [Input.outcome, Input.lexemes_drop hl, readFrom, Input.head?_drop, h, Input.complaint, hl]
    cases e with
    | nothing => exact absurd rfl he
    | _ => rfl

end Outcome

/-! ## Computations that agree with the automaton -/

/-- **A computation agrees with the automaton**: where it succeeds, what the automaton makes of
the lexemes before it is what it makes of the rest of them after it, and where the computation
refuses a lexeme the automaton says the same. It never crashes. -/
def Agrees (p : Input) (before : Except String σ) (m : Reader α)
    (after : α → Cursor → Except String σ) (s : Cursor) : Prop :=
  ∀ r t, exec m s = some (r, t) →
    match r with
    | .ok a => Forward p s t ∧ before = after a t
    | .error (.refused message) => before = .error message
    | .error .crashed => False

namespace Agrees

variable {before : Except String σ} {m : Reader α} {after : α → Cursor → Except String σ}
  {f : α → Reader β} {done : β → Cursor → Except String σ} {a : α} {x : Token}

theorem congr (m' : Reader α) (he : exec m s = exec m' s) (h : Agrees p before m' after s) :
    Agrees p before m after s :=
  fun r t h' => h r t (he ▸ h')

theorem of_ok (he : exec m s = some (.ok a, t)) (hF : Forward p s t)
    (h : before = after a t) : Agrees p before m after s := by
  rintro _ _ h'
  obtain ⟨rfl, rfl⟩ := Prod.mk.inj (Option.some.inj (he.symm.trans h'))
  exact ⟨hF, h⟩

theorem of_refused {message : String} (he : exec m s = some (.error (.refused message), t))
    (h : before = .error message) : Agrees p before m after s := by
  rintro _ _ h'
  obtain ⟨rfl, rfl⟩ := Prod.mk.inj (Option.some.inj (he.symm.trans h'))
  exact h

theorem bind (hm : Agrees p before m after s)
    (hf : ∀ a t, exec m s = some (.ok a, t) → Forward p s t →
      Agrees p (after a t) (f a) done t) : Agrees p before (m >>= f) done s := by
  intro r u he
  rw [exec_bind] at he
  cases hr : exec m s with
  | none => rw [hr] at he; cases he
  | some x =>
    obtain ⟨r', t⟩ := x
    rw [hr, Option.bind_some] at he
    have h := hm _ _ hr
    cases r' with
    | ok a =>
      have h' := hf a t hr h.1 r u he
      cases r with
      | ok b => exact ⟨h.1.trans h'.1, h.2.trans h'.2⟩
      | error e =>
        cases e with
        | refused message => exact h.2.trans h'
        | crashed => exact h'
    | error e =>
      obtain ⟨rfl, rfl⟩ := Prod.mk.inj (Option.some.inj he)
      cases e with
      | refused message => exact h
      | crashed => exact h

/-- A computation that succeeds, before another. -/
theorem step (he : exec m s = some (.ok a, t)) (hF : Forward p s t)
    (h : Agrees p before (f a) done t) : Agrees p before (m >>= f) done s := by
  have hm : Agrees p before m (fun _ _ => before) s := of_ok he hF rfl
  refine hm.bind fun a' t' he' _ => ?_
  obtain ⟨ha, rfl⟩ := Prod.mk.inj (Option.some.inj (he.symm.trans he'))
  obtain rfl := Except.ok.inj ha
  exact h

theorem congr_after {after' : α → Cursor → Except String σ} (h : Agrees p before m after s)
    (hafter : ∀ a t, Forward p s t → after a t = after' a t) :
    Agrees p before m after' s := by
  intro r t he
  have h' := h r t he
  match r with
  | .ok a => exact ⟨h'.1, h'.2.trans (hafter a t h'.1)⟩
  | .error (.refused _) => exact h'
  | .error .crashed => exact h'

theorem of_pure (a : α) (hs : s.index ≤ p.lexemes.length) (h : before = after a s) :
    Agrees p before (pure a) after s :=
  of_ok (exec_pure a) (.refl hs) h

theorem consume_bind {g : Bool → Reader β}
    (hyes : p.tokenAt s.index = some x → Agrees p before (g true) done (s.advance 1))
    (hno : p.tokenAt s.index ≠ some x → Agrees p before (g false) done s) :
    Agrees p before (consume p x >>= g) done s := by
  by_cases hx : p.tokenAt s.index = some x
  · refine step ?_ (.advance (lt_of_tokenAt hx)) (hyes hx)
    rw [exec_consume, if_pos hx]
  · refine congr _ ?_ (hno hx)
    rw [exec_consume_bind, if_neg hx]

theorem peekIs_bind {g : Bool → Reader β}
    (hyes : p.tokenAt s.index = some x → Agrees p before (g true) done s)
    (hno : p.tokenAt s.index ≠ some x → Agrees p before (g false) done s) :
    Agrees p before (peekIs p x >>= g) done s := by
  by_cases hx : p.tokenAt s.index = some x
  · refine congr _ ?_ (hyes hx)
    rw [exec_peekIs_bind, if_pos hx]
  · refine congr _ ?_ (hno hx)
    rw [exec_peekIs_bind, if_neg hx]

theorem expect_bind {wanted : String} {f : Unit → Reader β}
    (hyes : p.tokenAt s.index = some x → Agrees p before (f ()) done (s.advance 1))
    (hno : p.tokenAt s.index ≠ some x → before = .error (p.complaint s.index wanted)) :
    Agrees p before (expect p x wanted >>= f) done s := by
  by_cases hx : p.tokenAt s.index = some x
  · refine step ?_ (.advance (lt_of_tokenAt hx)) (hyes hx)
    rw [exec_expect, if_pos hx]
  · refine of_refused (t := s) ?_ (hno hx)
    rw [exec_expect_bind, if_neg hx]

end Agrees

/-! ## Words -/

/-- The word at an index. -/
def Input.wordAt? (p : Input) (unary : List Nat) (i : Nat) : Option Word :=
  p.lexemes[i]?.map fun l => ⟨l.token, l.text, unary.contains i⟩

/-- The words from an index to before another, where the lexemes of `unary` are unary operators. -/
def Input.words (p : Input) (unary : List Nat) (i j : Nat) : Fragment :=
  (List.range' i (j - i)).filterMap (p.wordAt? unary)

/-- The unary operators that have been read lie before the cursor, and that among the lexemes. -/
structure Cursor.Sound (p : Input) (s : Cursor) : Prop where
  inside : s.index ≤ p.lexemes.length
  unary : ∀ k ∈ s.unary, k < s.index

/-- The lexeme that comes next has not been read as a unary operator. -/
theorem Cursor.Sound.contains_index (hs : s.Sound p) : s.unary.contains s.index = false := by
  simpa using fun h => Nat.lt_irrefl _ (hs.unary _ h)

theorem Forward.sound (h : Forward p s t) (hs : s.Sound p) : t.Sound p where
  inside := h.inside
  unary := by
    obtain ⟨ks, hks, hin⟩ := h.unary
    intro k hk
    rw [hks] at hk
    rcases List.mem_append.mp hk with hk | hk
    · exact Nat.lt_of_lt_of_le (hs.unary k hk) h.le
    · exact (hin.within k hk).2

theorem Cursor.Sound.advance (hs : s.Sound p) (h : s.index < p.lexemes.length) :
    (s.advance 1).Sound p :=
  (Forward.advance h).sound hs

section Words

variable {unary unary' : List Nat} {l : Lexeme}

theorem words_self : p.words unary i i = [] := by
  simp [Input.words]

theorem words_append (hij : i ≤ j) (hjk : j ≤ k) :
    p.words unary i j ++ p.words unary j k = p.words unary i k := by
  have h := List.range'_append_1 (s := i) (m := j - i) (n := k - j)
  rw [show i + (j - i) = j by omega, show j - i + (k - j) = k - i by omega] at h
  rw [Input.words, Input.words, Input.words, ← List.filterMap_append, h]

theorem words_congr (h : ∀ k, i ≤ k → k < j → (k ∈ unary ↔ k ∈ unary')) :
    p.words unary i j = p.words unary' i j := by
  refine List.filterMap_congr fun k hk => ?_
  rw [List.mem_range'_1] at hk
  have hmem := h k hk.1 (by omega)
  rw [Input.wordAt?, Input.wordAt?]
  simp [hmem]

theorem words_succ (hl : p.lexemes[i]? = some l) :
    p.words unary i (i + 1) = [⟨l.token, l.text, unary.contains i⟩] := by
  rw [Input.words, Nat.add_sub_cancel_left, List.range'_one, List.filterMap_cons, Input.wordAt?, hl]
  rfl

/-- What is read later does not change the words that have been read. -/
theorem words_forward (hs : Forward p s t) (ht : Forward p t u) :
    p.words t.unary s.index t.index ++ p.words u.unary t.index u.index =
      p.words u.unary s.index u.index := by
  obtain ⟨ks, hks, hin⟩ := ht.unary
  rw [← words_append hs.le ht.le]
  congr 1
  refine words_congr fun k _ hk => ?_
  rw [hks, List.mem_append, or_iff_left]
  intro hmem
  exact Nat.not_le.mpr hk (hin.within k hmem).1

end Words

/-! ## Following a computation inside an expression -/

/-- **The automaton follows a computation** from one place of an expression to another: what the
computation reads are words of the fragment that is being read. -/
def Follows (p : Input) (P : Spot) (m : Reader Unit) (Q : Spot) (s : Cursor) : Prop :=
  s.Sound p → ∀ c d, Agrees p (p.outcome (P.within c) d s.index) m
    (fun _ t => p.outcome (Q.within c)
      { d with words := d.words ++ p.words t.unary s.index t.index } t.index) s

namespace Follows

variable {P P' Q R : Spot} {m : Reader Unit} {f : Unit → Reader Unit} {g : Bool → Reader Unit}
  {x : Token} {M : Mode} {G : List Frame}

theorem congr (m' : Reader Unit) (he : exec m s = exec m' s) (h : Follows p P m' Q s) :
    Follows p P m Q s :=
  fun hs c d => (h hs c d).congr m' he

theorem done : Follows p P (pure ()) P s := by
  intro hs c d
  refine .of_pure () hs.inside ?_
  rw [words_self, List.append_nil]

/-- The automaton may stand at another place that reads the next token in the same way. -/
theorem alike (hP : Spot.Alike (p.tokenAt s.index) (p.tokenAt (s.index + 1)) P P')
    (h : Follows p P' m Q s) : Follows p P m Q s := by
  intro hs c d
  rw [outcome_eq_of_alike (hP c)]
  exact h hs c d

theorem bind (hm : Follows p P m Q s)
    (hf : ∀ t, exec m s = some (.ok (), t) → Follows p Q (f ()) R t) :
    Follows p P (m >>= f) R s := by
  intro hs c d
  refine .bind (hm hs c d) fun _ t he hF => ?_
  refine (hf t he (hF.sound hs) c _).congr_after fun _ u hF' => ?_
  simp only [List.append_assoc, words_forward hF hF']

/-- A computation that moves the cursor, before another. -/
theorem step (hm : Follows p P m Q s) (he : exec m s = some (.ok (), t))
    (h : Follows p Q (f ()) R t) : Follows p P (m >>= f) R s := by
  refine hm.bind fun t' he' => ?_
  obtain ⟨-, rfl⟩ := Prod.mk.inj (Option.some.inj (he.symm.trans he'))
  exact h

/-! ### Moves -/

/-- The automaton moves over a word. -/
theorem outcome_move {l : Lexeme} {b : Bool} {c : Clause} {d : Draft}
    (hl : p.lexemes[i]? = some l) (hmove : Move P.2 (p.tokenAt (i + 1)) P.1 l.token b M G) :
    p.outcome (P.within c) d i = p.outcome (Spot.within (M, G) c)
      { d with words := d.words ++ [⟨l.token, l.text, b⟩] } (i + 1) :=
  outcome_step (P.within c) hl (hmove.exprStep_eq c)

theorem of_advance (hx : p.tokenAt s.index = some x)
    (hmove : Move P.2 (p.tokenAt (s.index + 1)) P.1 x false M G) :
    Follows p P (advance 1) (M, G) s := by
  intro hs c d
  obtain ⟨l, hl, rfl⟩ := Option.map_eq_some_iff.mp hx
  refine .of_ok (exec_advance 1) (.advance (lt_of_tokenAt hx)) ?_
  rw [outcome_move hl hmove, Cursor.advance, words_succ hl, hs.contains_index]

theorem advance_bind (hx : p.tokenAt s.index = some x)
    (hmove : Move P.2 (p.tokenAt (s.index + 1)) P.1 x false M G)
    (h : Follows p (M, G) (f ()) R (s.advance 1)) : Follows p P (advance 1 >>= f) R s :=
  (of_advance hx hmove).step (exec_advance 1) h

theorem consumeUnary_bind (hx : p.tokenAt s.index = some x)
    (hunary : x = .keyword .not_ ∨ isSign x)
    (hmove : Move P.2 (p.tokenAt (s.index + 1)) P.1 x true M G)
    (h : Follows p (M, G) (f ()) R s.takeUnary) : Follows p P (consumeUnary >>= f) R s := by
  have hm : Follows p P consumeUnary (M, G) s := by
    intro _ c d
    obtain ⟨l, hl, rfl⟩ := Option.map_eq_some_iff.mp hx
    refine .of_ok exec_consumeUnary (.takeUnary hx hunary) ?_
    rw [outcome_move hl hmove, Cursor.takeUnary, words_succ hl]
    simp
  exact hm.step exec_consumeUnary h

/-! ### Looking ahead -/

theorem peekIs_bind (hyes : p.tokenAt s.index = some x → Follows p P (g true) R s)
    (hno : p.tokenAt s.index ≠ some x → Follows p P (g false) R s) :
    Follows p P (peekIs p x >>= g) R s :=
  fun hs c d => .peekIs_bind (fun hx => hyes hx hs c d) fun hx => hno hx hs c d

theorem consume_bind
    (hmove : p.tokenAt s.index = some x → Move P.2 (p.tokenAt (s.index + 1)) P.1 x false M G)
    (hyes : p.tokenAt s.index = some x → Follows p (M, G) (g true) R (s.advance 1))
    (hno : p.tokenAt s.index ≠ some x → Follows p P (g false) R s) :
    Follows p P (consume p x >>= g) R s := by
  by_cases hx : p.tokenAt s.index = some x
  · refine congr (do advance 1; g true) ?_ (advance_bind hx (hmove hx) (hyes hx))
    rw [exec_consume_bind, if_pos hx]
    rfl
  · refine congr _ ?_ (hno hx)
    rw [exec_consume_bind, if_neg hx]

/-! ### Refusals -/

theorem of_refuse (e : Expected) (he : e ≠ .nothing)
    (h : P.Rejects (p.tokenAt s.index) (p.tokenAt (s.index + 1)) e) :
    Follows p P (refuse p e.description) Q s :=
  fun _ c _ => .of_refused (exec_refuse _) (outcome_of_rejects he (h c))

theorem refuse_bind (e : Expected) (he : e ≠ .nothing)
    (h : P.Rejects (p.tokenAt s.index) (p.tokenAt (s.index + 1)) e) :
    Follows p P (refuse p e.description >>= f) Q s :=
  .congr _ (exec_bind_error (exec_refuse _)) (of_refuse e he h)

/-- A token that is known to come next. -/
theorem expected_bind {wanted : String} (hx : p.tokenAt s.index = some x)
    (hmove : Move P.2 (p.tokenAt (s.index + 1)) P.1 x false M G)
    (h : Follows p (M, G) (f ()) R (s.advance 1)) :
    Follows p P (expect p x wanted >>= f) R s := by
  refine congr (do advance 1; f ()) ?_ (advance_bind hx hmove h)
  rw [exec_expect_bind, if_pos hx]
  rfl

theorem expect_bind (e : Expected) (he : e ≠ .nothing)
    (hmove : Move P.2 (p.tokenAt (s.index + 1)) P.1 x false M G)
    (hrejects : p.tokenAt s.index ≠ some x →
      P.Rejects (p.tokenAt s.index) (p.tokenAt (s.index + 1)) e)
    (h : Follows p (M, G) (f ()) R (s.advance 1)) :
    Follows p P (expect p x e.description >>= f) R s := by
  by_cases hx : p.tokenAt s.index = some x
  · exact expected_bind hx hmove h
  · refine congr _ ?_ (of_refuse e he (hrejects hx))
    rw [exec_expect_bind, if_neg hx, exec_refuse]

theorem of_expect (e : Expected) (he : e ≠ .nothing)
    (hmove : Move P.2 (p.tokenAt (s.index + 1)) P.1 x false M G)
    (hrejects : p.tokenAt s.index ≠ some x →
      P.Rejects (p.tokenAt s.index) (p.tokenAt (s.index + 1)) e) :
    Follows p P (expect p x e.description) (M, G) s := by
  rw [← bind_pure (expect p x e.description)]
  exact expect_bind e he hmove hrejects done

end Follows

end Descent

end TreeQuery.Query
