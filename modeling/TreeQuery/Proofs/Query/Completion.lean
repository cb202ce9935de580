import TreeQuery.Proofs.Query.ExprComplete
import TreeQuery.Proofs.Query.PlaceRun

/-!
# Every place can be completed

`Place.remainder` lists tokens that complete a statement from a place. First comes what the
operand that has been begun still wants (`Mode.remainder`), then what closes the open constructs,
the innermost first (`Frame.closing`), then FROM if a column is open.

The automaton reads the remainder as it is meant as long as no operand above a lower bound of
BETWEEN takes the AND. `Ordered` says of a stack of frames that every operand on top of a lower
bound has level 3 or more, and AND has level 2. Every step keeps the frames ordered.

Results:
* `Leads.ordered`: the frames of every place that a run reaches are ordered.
* `Place.accepts_remainder`: from a place with ordered frames its remainder leads to the end.
-/

namespace TreeQuery.Query

/-! ## Ordered frames -/

/-- The least level that operands on top of the frames may have. -/
def leastOn : List Frame → Nat
  | .lowerBound :: _ => 3
  | .operators _ :: F | .pattern :: F => leastOn F
  | _ => 0

/-- No operand above the lower bound of a BETWEEN takes its AND. -/
def Ordered : List Frame → Prop
  | [] => True
  | .operators l :: F => leastOn F ≤ l ∧ Ordered F
  | _ :: F => Ordered F

theorem leastOn_le_three (F : List Frame) : leastOn F ≤ 3 := by
  induction F with
  | nil => decide
  | cons f F ih => cases f <;> simp [leastOn, ih]

namespace Ordered

variable {F X : List Frame}

theorem tail {f : Frame} (h : Ordered (f :: F)) : Ordered F := by
  cases f with
  | operators l => exact h.2
  | _ => exact h

theorem of_append : ∀ {X : List Frame}, Ordered (X ++ F) → Ordered F
  | [], h => h
  | _ :: _, h => of_append h.tail

theorem five (h : Ordered F) : Ordered (.operators 5 :: F) :=
  ⟨Nat.le_trans (leastOn_le_three F) (by decide), h⟩

/-- The operands above a lower bound are of level 3 or more. -/
theorem slack (h : Ordered (X ++ .lowerBound :: F)) (hX : ∀ f ∈ X, f.isLoose) :
    ∀ f ∈ X, Slack 3 f := by
  have hleast : ∀ {X : List Frame}, (∀ f ∈ X, f.isLoose) → leastOn (X ++ .lowerBound :: F) = 3 := by
    intro X
    induction X with
    | nil => exact fun _ => rfl
    | cons f X ih =>
      intro hX
      obtain ⟨hf, hX'⟩ := List.forall_mem_cons.mp hX
      cases f with
      | operators _ | pattern => exact ih hX'
      | _ => exact absurd hf (by decide)
  induction X with
  | nil => simp
  | cons f X ih =>
    obtain ⟨hf, hX'⟩ := List.forall_mem_cons.mp hX
    refine List.forall_mem_cons.mpr ⟨?_, ih h.tail hX'⟩
    cases f with
    | operators l => exact hleast hX' ▸ h.1
    | pattern => trivial
    | _ => exact absurd hf (by decide)

end Ordered

/-! ### Steps keep the frames ordered -/

theorem Starts.ordered {F : List Frame} {next : Option Token} {b : Bool} {t : Token} {u : Bool}
    {m : Mode} {F' : List Frame} (h : Starts F next b t u m F') (hF : Ordered F) :
    Ordered F' := by
  cases h with
  | group => exact ⟨Nat.zero_le 1, hF⟩
  | not _ => exact ⟨leastOn_le_three F, hF⟩
  | _ => exact hF

theorem Operator.ordered_enter {l : Nat} {F : List Frame} {op : Operator}
    (h : Ordered (.operators l :: F)) (hl : l ≤ op.level) :
    Ordered (op.enter (.operators l :: F)).2 := by
  cases op with
  | binary q => exact ⟨Nat.le_succ_of_le (Nat.le_trans h.1 hl), h⟩
  | between => exact Ordered.five (F := .lowerBound :: .operators l :: F) h
  | is_ => exact h.five
  | like => exact Ordered.five (F := .pattern :: .operators l :: F) h
  | _ => exact h

theorem Takes.ordered {next : Option Token} {F : List Frame} {t : Token} {m : Mode}
    {F' : List Frame} (h : Takes next F t m F') (hF : Ordered F) : Ordered F' := by
  cases h with
  | operator _ hl => exact Operator.ordered_enter hF hl
  | escape | and_ => exact hF.tail.five
  | closeList | closeCall | closeGroup | endResult | endDefault => exact hF.tail
  | _ => exact ⟨Nat.zero_le 1, hF.tail⟩

theorem Move.ordered {F : List Frame} {next : Option Token} {m : Mode} {t : Token} {u : Bool}
    {m' : Mode} {F' : List Frame} (h : Move F next m t u m' F') (hF : Ordered F) :
    Ordered F' := by
  have hopen : ∀ f, leastOn (f :: F) = 0 → Ordered (f :: F) → Ordered (.operators 1 :: f :: F) :=
    fun f hf h => ⟨hf ▸ Nat.zero_le 1, h⟩
  cases h with
  | operand h | signed h => exact h.ordered hF
  | isOperand _ h => exact h.ordered hF
  | argument h | subject h | item h => exact h.ordered (hopen _ rfl hF)
  | distinct | when_ => exact hopen _ rfl hF
  | resume _ hXG _ hG => exact hG.ordered (hXG ▸ hF).of_append
  | notBetween | notLike _ => exact Ordered.five (F := _ :: F) hF
  | _ => exact hF

/-- The frames of a place are ordered. -/
def Place.Ordered : Place → Prop
  | .expr _ _ F => Query.Ordered F
  | _ => True

theorem Place.ordered_exprStart (c : Clause) : (Place.exprStart c).Ordered :=
  ⟨Nat.zero_le 1, trivial⟩

theorem tailStep_ordered {k : Nat} {e : Option Slot} {t : Token} {s : Step}
    (h : tailStep k e t = .ok s) : s.place.Ordered := by
  obtain ⟨c, -, -, rfl⟩ := tailStep_eq_ok_iff.mp h
  cases c with
  | where_ | limit => exact Place.ordered_exprStart _
  | group | order => trivial

theorem Clause.endStep_ordered {c : Clause} {t : Token} {s : Step} (h : c.endStep t = .ok s) :
    s.place.Ordered := by
  unfold Clause.endStep at h
  split at h
  all_goals first
    | exact tailStep_ordered h
    | cases h
  all_goals first
    | exact Place.ordered_exprStart _
    | trivial

theorem columnStep_ordered {t : Token} {next : Option Token} {s : Step}
    (h : columnStep t next = .ok s) : s.place.Ordered := by
  unfold columnStep at h
  split at h
  · obtain rfl := Except.ok.inj h
    trivial
  · obtain ⟨u, m, F', hstart, rfl⟩ := operandStep_iff.mp h
    exact hstart.ordered ⟨Nat.zero_le 1, trivial⟩

theorem Place.step_ordered {p : Place} {t : Token} {next : Option Token} {s : Step}
    (h : p.step t next = .ok s) (hp : p.Ordered) : s.place.Ordered := by
  cases p with
  | expr c m F =>
    rcases exprStep_cases h with ⟨u, m', F', hmove, rfl⟩ | ⟨-, -, hend⟩
    · exact hmove.ordered hp
    · exact Clause.endStep_ordered hend
  | column => exact columnStep_ordered h
  | sourceEnd => exact tailStep_ordered h
  | start | «alias» | group | order | quantifier | orderEnd | columnEnd =>
    rw [Place.step.eq_def] at h
    dsimp only at h
    repeat' split at h
    all_goals first
      | exact columnStep_ordered h
      | exact tailStep_ordered h
      | cases h
    all_goals first
      | exact Place.ordered_exprStart _
      | trivial

/-- **The frames of every place that a run reaches are ordered.** -/
theorem Leads.ordered {next : Option Token} {p q : Place} {w : List Token}
    (h : Leads next p w q) (hp : p.Ordered) : q.Ordered := by
  induction h with
  | done => exact hp
  | step hs _ ih => exact ih (Place.step_ordered hs hp)

/-! ## What completes a statement -/

/-- WHEN, a condition, THEN, a result and END. -/
def whenEnd : List Token :=
  [.keyword .when_, .ident, .keyword .then_, .ident, .keyword .end_]

/-- Tokens that complete the operand that is being read. -/
def Mode.remainder : Mode → List Token
  | operand | signed | isOperand | member | collation => [.ident]
  | call | inList => [.symbol .openParen, .symbol .closeParen]
  | argumentList | callEnd | inItems => [.symbol .closeParen]
  | case_ => whenEnd
  | negated => [.keyword .null]
  | name | operandEnd | end_ => []

/-- Tokens that close a construct when an operand in it is complete. -/
def Frame.closing : Frame → List Token
  | operators _ | pattern => []
  | lowerBound => [.keyword .and_, .ident]
  | list | arguments | group => [.symbol .closeParen]
  | caseSubject => whenEnd
  | caseCondition => [.keyword .then_, .ident, .keyword .end_]
  | caseResult | caseDefault => [.keyword .end_]

/-- Tokens that complete a statement after the expression of a clause. -/
def Clause.remainder : Clause → List Token
  | column => [.source "."]
  | _ => []

/-- **Tokens that complete a statement.** -/
def Place.remainder : Place → List Token
  | .start => [.keyword .select, .symbol .star, .source "."]
  | .quantifier | .column => [.symbol .star, .source "."]
  | .alias => [.ident, .source "."]
  | .columnEnd => [.source "."]
  | .group | .order => [.keyword .by_, .ident]
  | .sourceEnd | .orderEnd => []
  | .expr c m F => m.remainder ++ (F.flatMap Frame.closing ++ c.remainder)

/-! ## Reading what completes it -/

section Remainder

variable {m : Mode} {F X : List Frame}

/-- A name is an operand. -/
theorem runs_ident (F : List Frame) : Runs .operand F [.ident] .name F :=
  .cons (fun _ => .operand .name) .nil

theorem runs_end (hm : m.isComplete) (hX : ∀ f ∈ X, f.isLoose) {f : Frame}
    (hf : f = .caseResult ∨ f = .caseDefault) :
    Runs m (X ++ f :: F) [.keyword .end_] .operandEnd F := by
  refine .cons (fun _ => move_past rfl hm hX ?_) .nil
  rcases hf with rfl | rfl
  · exact .endResult
  · exact .endDefault

theorem runs_then (hm : m.isComplete) (hX : ∀ f ∈ X, f.isLoose) :
    Runs m (X ++ .caseCondition :: F) [.keyword .then_, .ident, .keyword .end_] .operandEnd F :=
  .cons (fun _ => move_past rfl hm hX .then_)
    ((runs_ident _).append
      (runs_end (X := [.operators 1]) rfl (by simp [Frame.isLoose]) (.inl rfl)))

/-- The condition of a WHEN and what follows it. -/
theorem runs_condition (F : List Frame) :
    Runs .operand (.operators 1 :: .caseCondition :: F)
      [.ident, .keyword .then_, .ident, .keyword .end_] .operandEnd F :=
  (runs_ident _).append (runs_then (X := [.operators 1]) rfl (by simp [Frame.isLoose]))

/-- **The operand that is being read can be completed.** -/
theorem exists_runs_remainder (m : Mode) (F : List Frame) :
    ∃ m', m'.isComplete ∧ Runs m F m.remainder m' F := by
  cases m with
  | name | operandEnd | end_ => exact ⟨_, rfl, .nil⟩
  | operand => exact ⟨_, rfl, runs_ident F⟩
  | signed => exact ⟨.name, rfl, .cons (fun _ => .signed .name) .nil⟩
  | isOperand => exact ⟨.name, rfl, .cons (fun _ => .isOperand (by simp) .name) .nil⟩
  | member => exact ⟨_, rfl, .cons (fun _ => .member) .nil⟩
  | collation => exact ⟨_, rfl, .cons (fun _ => .collation rfl) .nil⟩
  | call => exact ⟨_, rfl, .cons (fun _ => .call) (.cons (fun _ => .noArgument) .nil)⟩
  | inList => exact ⟨_, rfl, .cons (fun _ => .inList) (.cons (fun _ => .noItem) .nil)⟩
  | argumentList => exact ⟨_, rfl, .cons (fun _ => .noArgument) .nil⟩
  | callEnd => exact ⟨_, rfl, .cons (fun _ => .callEnd) .nil⟩
  | inItems => exact ⟨_, rfl, .cons (fun _ => .noItem) .nil⟩
  | case_ => exact ⟨_, rfl, .cons (fun _ => .when_) (runs_condition F)⟩
  | negated => exact ⟨_, rfl, .cons (fun _ => .notNull) .nil⟩

/-- **An open construct can be closed**, and only frames that may stay open are left in its
place. -/
theorem exists_runs_closing (hm : m.isComplete) (hX : ∀ f ∈ X, f.isLoose) (f : Frame)
    (hF : Ordered (X ++ f :: F)) :
    ∃ m' Y, m'.isComplete ∧ (∀ g ∈ Y, g.isLoose) ∧ Ordered (Y ++ F) ∧
      Runs m (X ++ f :: F) f.closing m' (Y ++ F) := by
  have hrest : Ordered F := hF.of_append.tail
  have hkeep : f.isLoose → ∃ m' Y, m'.isComplete ∧ (∀ g ∈ Y, g.isLoose) ∧ Ordered (Y ++ F) ∧
      Runs m (X ++ f :: F) [] m' (Y ++ F) := by
    intro hf
    rw [List.append_cons] at hF ⊢
    exact ⟨m, X ++ [f], hm, List.forall_mem_append.mpr ⟨hX, by simpa using hf⟩, hF, .nil⟩
  have hclose : ∀ {m'}, m'.isComplete → Runs m (X ++ f :: F) f.closing m' F →
      ∃ m' Y, m'.isComplete ∧ (∀ g ∈ Y, g.isLoose) ∧ Ordered (Y ++ F) ∧
        Runs m (X ++ f :: F) f.closing m' (Y ++ F) :=
    fun hm' hr => ⟨_, [], hm', by simp, hrest, hr⟩
  cases f with
  | operators l => exact hkeep rfl
  | pattern => exact hkeep rfl
  | lowerBound =>
    refine ⟨.name, [.operators 5], rfl, by simp [Frame.isLoose], hrest.five, ?_⟩
    exact .cons (fun _ => move_and hm (hF.slack hX)) (runs_ident _)
  | list => exact hclose rfl (.cons (fun _ => move_past rfl hm hX .closeList) .nil)
  | arguments => exact hclose rfl (.cons (fun _ => move_past rfl hm hX .closeCall) .nil)
  | group => exact hclose rfl (.cons (fun _ => move_past rfl hm hX .closeGroup) .nil)
  | caseSubject =>
    exact hclose rfl (.cons (fun _ => move_past rfl hm hX .firstWhen) (runs_condition F))
  | caseCondition => exact hclose rfl (runs_then hm hX)
  | caseResult => exact hclose rfl (runs_end hm hX (.inl rfl))
  | caseDefault => exact hclose rfl (runs_end hm hX (.inr rfl))

/-- All open constructs can be closed, the innermost first. -/
theorem exists_runs_flatMap_closing (hm : m.isComplete) (hX : ∀ f ∈ X, f.isLoose)
    (hF : Ordered (X ++ F)) :
    ∃ m' Y, m'.isComplete ∧ (∀ g ∈ Y, g.isLoose) ∧
      Runs m (X ++ F) (F.flatMap Frame.closing) m' Y := by
  induction F generalizing m X with
  | nil =>
    refine ⟨m, X, hm, hX, ?_⟩
    rw [List.append_nil]
    exact .nil
  | cons f F ih =>
    obtain ⟨m₁, Y₁, hm₁, hY₁, hF₁, hr₁⟩ := exists_runs_closing hm hX f hF
    obtain ⟨m', Y, hm', hY, hr⟩ := ih hm₁ hY₁ hF₁
    exact ⟨m', Y, hm', hY, hr₁.append hr⟩

end Remainder

theorem Runs.leads {m m' : Mode} {F F' : List Frame} {w : List Token} (h : Runs m F w m' F')
    (c : Clause) (next : Option Token) : Leads next (.expr c m F) w (.expr c m' F') := by
  obtain ⟨f, rfl, hreads⟩ := h next
  exact hreads.leads c

/-- After a complete expression its clause can be completed. -/
theorem Clause.accepts_remainder {m : Mode} {F : List Frame} (hm : m.isComplete)
    (hF : ∀ f ∈ F, f.isLoose) (c : Clause) : (Place.expr c m F).Accepts c.remainder := by
  by_cases hc : c = .column
  · subst hc
    have hstep : ∀ next, Place.step (.expr .column m F) (.source ".") next =
        .ok ⟨some .column, .source ".", .sourceEnd⟩ :=
      fun next => exprStep_of_endsExpression hm hF rfl .column next
    exact ⟨.sourceEnd, none, .step (hstep _) .done, rfl⟩
  · have hremainder : c.remainder = [] := by
      cases c <;> first | rfl | exact absurd rfl hc
    rw [hremainder]
    exact ⟨_, some c.slot, .done, by rw [finish_of_isComplete hm hF, if_neg hc]⟩

/-- **From a place with ordered frames its remainder leads to the end.** -/
theorem Place.accepts_remainder {p : Place} (hp : p.Ordered) : p.Accepts p.remainder := by
  cases p with
  | start => exact ⟨.sourceEnd, none, .step rfl (.step rfl (.step rfl .done)), rfl⟩
  | quantifier | column | «alias» => exact ⟨.sourceEnd, none, .step rfl (.step rfl .done), rfl⟩
  | columnEnd => exact ⟨.sourceEnd, none, .step rfl .done, rfl⟩
  | sourceEnd => exact ⟨.sourceEnd, none, .done, rfl⟩
  | orderEnd => exact ⟨.orderEnd, some .orderTerm, .done, rfl⟩
  | group =>
    exact ⟨.expr .groupTerm .name [.operators 1], _, .step rfl (.step rfl .done), rfl⟩
  | order =>
    exact ⟨.expr .orderTerm .name [.operators 1], _, .step rfl (.step rfl .done), rfl⟩
  | expr c m F =>
    obtain ⟨m₁, hm₁, hr₁⟩ := exists_runs_remainder m F
    obtain ⟨m₂, Y, hm₂, hY, hr₂⟩ := exists_runs_flatMap_closing (X := []) hm₁ (by simp) hp
    obtain ⟨q, ended, hlead, hfinish⟩ := c.accepts_remainder hm₂ hY
    exact ⟨q, ended, (hr₁.leads c _).append ((hr₂.leads c _).append hlead), hfinish⟩

/-- The remainder is what the step to the place expected. -/
theorem Place.admits_remainder (p : Place) : p.Admits p.remainder.head? := by
  cases p with
  | expr c m F =>
    cases m with
    | call | negated => exact rfl
    | _ => trivial
  | _ => trivial

end TreeQuery.Query
