import TreeQuery.Proofs.Query.Grammar

/-!
# The moves of the automaton

`exprStep` decides by mode, token and frames. Here the same steps are listed as rules: `Starts` for
the token an operand starts with, `Takes` for the frame that takes the token after an operand, and
`Move` for all steps inside an expression. Later proofs go by cases over these rules and do not
open the automaton.

Results:
* `Move.exprStep_eq`: a move is a step, in every clause.
* `exprStep_cases`: a step that is no move is one of the clause, taken where the expression is
  complete.
* `resume_inside_iff`, `resume_outside_iff`: the token after an operand goes to the innermost frame
  that takes it, and leaves the expression iff every frame lets it pass.
-/

namespace TreeQuery.Query

open Grammar (binaryLevel isLiteral isSign isLikeWord isFunction isNaming)

/-! ## The rules -/

/-- The first token of an operand read under the frames `F`: whether it is a unary operator, and
the mode and frames after it. A NOT may start an operand only where `mayNegate` holds. -/
inductive Starts (F : List Frame) (next : Option Token) (mayNegate : Bool) :
    Token → Bool → Mode → List Frame → Prop where
  | literal {t} : isLiteral t → Starts F next mayNegate t false .operandEnd F
  | name : Starts F next mayNegate .ident false .name F
  | group : Starts F next mayNegate (.symbol .openParen) false .operand
      (.operators 1 :: .group :: F)
  | sign {t} : isSign t → Starts F next mayNegate t true .signed F
  | case_ : Starts F next mayNegate (.keyword .case_) false .case_ F
  | not : mayNegate → Starts F next mayNegate (.keyword .not_) true .operand (.operators 3 :: F)
  | function {t} : isLikeWord t → next = some (.symbol .openParen) →
      Starts F next mayNegate t false .call F

/-- The operator that a token is after an operand. -/
inductive Operates (next : Option Token) : Token → Operator → Prop where
  | binary {t q} : binaryLevel t = some q → Operates next t (.binary q)
  | is_ : Operates next (.keyword .is_) .is_
  | in_ : Operates next (.keyword .in_) .in_
  | between : Operates next (.keyword .between) .between
  | like {t} : isLikeWord t → Operates next t .like
  | isNull : Operates next (.keyword .isNull) .nullTest
  | notNull : Operates next (.keyword .notNull) .nullTest
  | negation : negatable next → Operates next (.keyword .not_) .negation

/-- The innermost of the frames takes the token after an operand. -/
inductive Takes (next : Option Token) : List Frame → Token → Mode → List Frame → Prop where
  | operator {l F t op} : Operates next t op → l ≤ op.level →
      Takes next (.operators l :: F) t (op.enter (.operators l :: F)).1
        (op.enter (.operators l :: F)).2
  | escape {F} : Takes next (.pattern :: F) (.keyword .escape) .operand (.operators 5 :: F)
  | and_ {F} : Takes next (.lowerBound :: F) (.keyword .and_) .operand (.operators 5 :: F)
  | nextItem {F} : Takes next (.list :: F) (.symbol .comma) .operand (.operators 1 :: .list :: F)
  | closeList {F} : Takes next (.list :: F) (.symbol .closeParen) .end_ F
  | nextArgument {F} : Takes next (.arguments :: F) (.symbol .comma) .operand
      (.operators 1 :: .arguments :: F)
  | closeCall {F} : Takes next (.arguments :: F) (.symbol .closeParen) .operandEnd F
  | nextMember {F} : Takes next (.group :: F) (.symbol .comma) .operand
      (.operators 1 :: .group :: F)
  | closeGroup {F} : Takes next (.group :: F) (.symbol .closeParen) .operandEnd F
  | firstWhen {F} : Takes next (.caseSubject :: F) (.keyword .when_) .operand
      (.operators 1 :: .caseCondition :: F)
  | then_ {F} : Takes next (.caseCondition :: F) (.keyword .then_) .operand
      (.operators 1 :: .caseResult :: F)
  | nextWhen {F} : Takes next (.caseResult :: F) (.keyword .when_) .operand
      (.operators 1 :: .caseCondition :: F)
  | else_ {F} : Takes next (.caseResult :: F) (.keyword .else_) .operand
      (.operators 1 :: .caseDefault :: F)
  | endResult {F} : Takes next (.caseResult :: F) (.keyword .end_) .operandEnd F
  | endDefault {F} : Takes next (.caseDefault :: F) (.keyword .end_) .operandEnd F

/-- The frame ends before the token. -/
def Passes (next : Option Token) (t : Token) : Frame → Prop
  | .operators l => ∀ op, Operates next t op → op.level < l
  | .pattern => t ≠ .keyword .escape
  | _ => False

/-- The modes in which an operand is complete. -/
def Mode.isComplete : Mode → Bool
  | name | operandEnd | end_ => true
  | _ => false

/-- **The moves inside an expression.** `next` is the token after the one that is read. -/
inductive Move (F : List Frame) (next : Option Token) :
    Mode → Token → Bool → Mode → List Frame → Prop where
  | operand {t u m' F'} : Starts F next true t u m' F' → Move F next .operand t u m' F'
  | signed {t u m' F'} : Starts F next false t u m' F' → Move F next .signed t u m' F'
  | isNot : Move F next .isOperand (.keyword .not_) false .operand F
  | isOperand {t u m' F'} : t ≠ .keyword .not_ → Starts F next true t u m' F' →
      Move F next .isOperand t u m' F'
  | dot : Move F next .name (.symbol .dot) false .member F
  | nameCall : Move F next .name (.symbol .openParen) false .argumentList F
  | collateName : Move F next .name (.keyword .collate) false .collation F
  | collate : Move F next .operandEnd (.keyword .collate) false .collation F
  | member : Move F next .member .ident false .operandEnd F
  | call : Move F next .call (.symbol .openParen) false .argumentList F
  | star : Move F next .argumentList (.symbol .star) false .callEnd F
  | noArgument : Move F next .argumentList (.symbol .closeParen) false .operandEnd F
  | distinct : Move F next .argumentList (.keyword .distinct) false .operand
      (.operators 1 :: .arguments :: F)
  | argument {t u m' F'} : Starts (.operators 1 :: .arguments :: F) next true t u m' F' →
      Move F next .argumentList t u m' F'
  | callEnd : Move F next .callEnd (.symbol .closeParen) false .operandEnd F
  | when_ : Move F next .case_ (.keyword .when_) false .operand
      (.operators 1 :: .caseCondition :: F)
  | subject {t u m' F'} : Starts (.operators 1 :: .caseSubject :: F) next true t u m' F' →
      Move F next .case_ t u m' F'
  | collation {t} : isNaming t → Move F next .collation t false .operandEnd F
  | inList : Move F next .inList (.symbol .openParen) false .inItems F
  | noItem : Move F next .inItems (.symbol .closeParen) false .end_ F
  | item {t u m' F'} : Starts (.operators 1 :: .list :: F) next true t u m' F' →
      Move F next .inItems t u m' F'
  | notIn : Move F next .negated (.keyword .in_) false .inList F
  | notBetween : Move F next .negated (.keyword .between) false .operand
      (.operators 5 :: .lowerBound :: F)
  | notNull : Move F next .negated (.keyword .null) false .end_ F
  | notLike {t} : isLikeWord t → Move F next .negated t false .operand
      (.operators 5 :: .pattern :: F)
  | resume {m t m' X G F'} : m.isComplete → F = X ++ G → (∀ f ∈ X, Passes next t f) →
      Takes next G t m' F' → Move F next m t false m' F'

/-! ## The automaton takes the moves -/

theorem isLikeWord_keyword (k : Keyword) : isLikeWord (.keyword k) = k.isLikeFamily := by
  cases k <;> rfl

theorem isName_eq_isNaming (t : Token) : t.isName = isNaming t := by
  cases t <;> rfl

theorem operandStep_iff {c : Clause} {F : List Frame} {b : Bool} {t : Token}
    {next : Option Token} {s : Step} :
    operandStep c F b t next = .ok s ↔
      ∃ u m F', Starts F next b t u m F' ∧ s = ⟨none, .word u, .expr c m F'⟩ := by
  constructor
  · intro h
    unfold operandStep at h
    split at h
    case h_8 => exact ⟨_, _, _, .name, (Except.ok.inj h).symm⟩
    case h_9 => exact ⟨_, _, _, .group, (Except.ok.inj h).symm⟩
    case h_10 | h_11 | h_12 => exact ⟨_, _, _, .sign rfl, (Except.ok.inj h).symm⟩
    case h_13 => exact ⟨_, _, _, .case_, (Except.ok.inj h).symm⟩
    case h_14 =>
      split at h
      · rename_i hb
        exact ⟨_, _, _, .not hb, (Except.ok.inj h).symm⟩
      · exact absurd h (by simp)
    case h_15 k _ _ _ _ _ _ =>
      split at h
      · rename_i hk
        rw [Bool.and_eq_true, beq_iff_eq, ← isLikeWord_keyword] at hk
        exact ⟨_, _, _, .function hk.1 hk.2, (Except.ok.inj h).symm⟩
      · exact absurd h (by simp)
    case h_16 => exact absurd h (by simp)
    all_goals exact ⟨_, _, _, .literal rfl, (Except.ok.inj h).symm⟩
  · rintro ⟨u, m, F', h, rfl⟩
    cases h with
    | name | group | case_ => rfl
    | not hb => simp [operandStep, hb, notLevel]
    | literal ht =>
      cases t with
      | keyword k => cases k <;> first | rfl | simp [isLiteral] at ht
      | number | singleQuoted | doubleQuoted => rfl
      | _ => simp [isLiteral] at ht
    | sign ht =>
      cases t with
      | symbol s => cases s <;> first | rfl | simp [isSign] at ht
      | _ => simp [isSign] at ht
    | function ht hn =>
      cases t with
      | keyword k => subst hn; cases k <;> first | rfl | simp [isLikeWord] at ht
      | _ => simp [isLikeWord] at ht

theorem binaryLevel_symbol (s : Symbol) : binaryLevel (.symbol s) = s.level? := by
  cases s <;> rfl

theorem ofToken?_eq_some_iff {next : Option Token} {t : Token} {op : Operator} :
    Operator.ofToken? next t = some op ↔ Operates next t op := by
  constructor
  · intro h
    unfold Operator.ofToken? at h
    split at h
    case h_1 s =>
      obtain ⟨q, hq, rfl⟩ := Option.map_eq_some_iff.mp h
      exact .binary (by rw [binaryLevel_symbol, hq])
    case h_2 | h_3 => exact Option.some.inj h ▸ .binary rfl
    case h_9 =>
      split at h
      · rename_i hn
        exact Option.some.inj h ▸ .negation hn
      · cases h
    case h_10 k _ _ _ _ _ _ _ _ =>
      split at h
      · rename_i hk
        rw [← isLikeWord_keyword] at hk
        exact Option.some.inj h ▸ .like hk
      · cases h
    case h_11 => cases h
    all_goals exact Option.some.inj h ▸ (by constructor)
  · intro h
    cases h with
    | negation hn => exact if_pos hn
    | binary ht =>
      cases t with
      | symbol s =>
        rw [binaryLevel_symbol] at ht
        rw [Operator.ofToken?, ht]
        rfl
      | keyword k =>
        cases k <;> first
          | exact congrArg (Option.map Operator.binary) ht
          | cases ht
      | _ => cases ht
    | like ht =>
      cases t with
      | keyword k => cases k <;> first | rfl | cases ht
      | _ => cases ht
    | _ => rfl

theorem resume_passes {next : Option Token} {t : Token} {f : Frame} {F : List Frame}
    (h : Passes next t f) : resume (some t) next (f :: F) = resume (some t) next F := by
  cases f with
  | operators l =>
    rw [resume, Option.bind_some]
    cases hop : Operator.ofToken? next t with
    | none => rfl
    | some op => exact if_neg (Nat.not_le.mpr (h op (ofToken?_eq_some_iff.mp hop)))
  | pattern =>
    rw [resume]
    exact if_neg fun e => h (Option.some.inj e)
  | _ => exact h.elim

theorem resume_takes {next : Option Token} {t : Token} {F : List Frame} {m : Mode}
    {F' : List Frame} (h : Takes next F t m F') :
    resume (some t) next F = .ok (.inside m F') := by
  cases h with
  | operator hop hl =>
    unfold resume
    rw [Option.bind_some, ofToken?_eq_some_iff.mpr hop]
    exact if_pos hl
  | _ => rfl

/-- A frame lets the token after an operand pass, or takes it, or nothing can come of it. -/
theorem resume_cons_cases {next : Option Token} {t : Token} {f : Frame} {F : List Frame}
    {r : Resumption} (h : resume (some t) next (f :: F) = .ok r) :
    Passes next t f ∨ ∃ m F', r = .inside m F' ∧ Takes next (f :: F) t m F' := by
  cases f with
  | operators l =>
    unfold resume at h
    rw [Option.bind_some] at h
    cases hop : Operator.ofToken? next t with
    | none =>
      exact .inl fun op h' => absurd (hop.symm.trans (ofToken?_eq_some_iff.mpr h')) (by simp)
    | some op =>
      by_cases hl : l ≤ op.level
      · rw [hop] at h
        simp only [if_pos hl] at h
        exact .inr ⟨_, _, (Except.ok.inj h).symm, .operator (ofToken?_eq_some_iff.mp hop) hl⟩
      · refine .inl fun op' h' => ?_
        obtain rfl := Option.some.inj (hop.symm.trans (ofToken?_eq_some_iff.mpr h'))
        exact Nat.not_le.mp hl
  | pattern =>
    unfold resume at h
    by_cases ht : t = .keyword .escape
    · subst ht
      exact .inr ⟨_, _, (Except.ok.inj h).symm, .escape⟩
    · exact .inl ht
  | _ =>
    unfold resume at h
    right
    repeat' split at h
    all_goals first
      | (rename_i ht
         obtain rfl := Option.some.inj ht
         obtain rfl := Except.ok.inj h
         exact ⟨_, _, rfl, by constructor⟩)
      | cases h

theorem resume_append {next : Option Token} {t : Token} {G : List Frame} :
    ∀ {X : List Frame}, (∀ f ∈ X, Passes next t f) →
      resume (some t) next (X ++ G) = resume (some t) next G
  | [], _ => rfl
  | f :: X, h => by
    rw [List.cons_append, resume_passes (h f List.mem_cons_self)]
    exact resume_append fun g hg => h g (List.mem_cons_of_mem f hg)

/-- **The token after an operand stays inside** iff the frames above the one that takes it let
it pass. -/
theorem resume_inside_iff {next : Option Token} {t : Token} {m : Mode} {F F' : List Frame} :
    resume (some t) next F = .ok (.inside m F') ↔
      ∃ X G, F = X ++ G ∧ (∀ f ∈ X, Passes next t f) ∧ Takes next G t m F' := by
  constructor
  · induction F with
    | nil => intro h; exact absurd h (by simp [resume])
    | cons f F ih =>
      intro h
      rcases resume_cons_cases h with hf | ⟨_, _, hr, hT⟩
      · rw [resume_passes hf] at h
        obtain ⟨X, G, rfl, hX, hG⟩ := ih h
        exact ⟨f :: X, G, rfl, List.forall_mem_cons.mpr ⟨hf, hX⟩, hG⟩
      · cases hr
        exact ⟨[], f :: F, rfl, by simp, hT⟩
  · rintro ⟨X, G, rfl, hX, hG⟩
    rw [resume_append hX, resume_takes hG]

/-- The token after an operand leaves the expression iff every frame lets it pass. -/
theorem resume_outside_iff {next : Option Token} {t : Token} {F : List Frame} :
    resume (some t) next F = .ok .outside ↔ ∀ f ∈ F, Passes next t f := by
  constructor
  · induction F with
    | nil => intro _; simp
    | cons f F ih =>
      intro h
      rcases resume_cons_cases h with hf | ⟨_, _, hr, _⟩
      · rw [resume_passes hf] at h
        exact List.forall_mem_cons.mpr ⟨hf, ih h⟩
      · exact absurd hr (by simp)
  · intro h
    have := resume_append (G := []) h
    rw [List.append_nil] at this
    rw [this]
    rfl

/-! ## Steps inside an expression -/

/-- No frame takes a token that an unfinished operand would have taken. -/
theorem Takes.ne {next : Option Token} {F : List Frame} {t : Token} {m : Mode} {F' : List Frame}
    (h : Takes next F t m F') :
    t ≠ .symbol .dot ∧ t ≠ .symbol .openParen ∧ t ≠ .keyword .collate := by
  cases h with
  | operator hop _ =>
    refine ⟨?_, ?_, ?_⟩ <;> rintro rfl <;> exact nomatch ofToken?_eq_some_iff.mpr hop
  | _ => simp

theorem exprStep_complete {c : Clause} {m : Mode} {F : List Frame} {t : Token}
    {next : Option Token} (hm : m.isComplete)
    (ht : t ≠ .symbol .dot ∧ t ≠ .symbol .openParen ∧ t ≠ .keyword .collate) :
    exprStep c m F t next = afterOperand c F t next := by
  obtain ⟨hdot, hopen, hcollate⟩ := ht
  cases m <;> simp [Mode.isComplete] at hm <;> simp [exprStep, hdot, hopen, hcollate]

/-- No operand starts with a token that could stand in its place. -/
theorem Starts.ne {F : List Frame} {next : Option Token} {b : Bool} {t : Token} {u : Bool}
    {m : Mode} {F' : List Frame} (h : Starts F next b t u m F') :
    t ≠ .symbol .star ∧ t ≠ .symbol .closeParen ∧ t ≠ .keyword .distinct ∧
      t ≠ .keyword .when_ := by
  cases h with
  | literal ht | sign ht | function ht _ =>
    refine ⟨?_, ?_, ?_, ?_⟩ <;> rintro rfl <;> exact absurd ht (by decide)
  | _ => simp

/-- The automaton takes every move, in every clause. -/
theorem Move.exprStep_eq {F : List Frame} {next : Option Token} {m : Mode} {t : Token} {u : Bool}
    {m' : Mode} {F' : List Frame} (h : Move F next m t u m' F') (c : Clause) :
    exprStep c m F t next = .ok ⟨none, .word u, .expr c m' F'⟩ := by
  cases h with
  | resume hm hF hX hG =>
    rw [exprStep_complete hm hG.ne, afterOperand, resume_inside_iff.mpr ⟨_, _, hF, hX, hG⟩]
    rfl
  | operand h | signed h => exact operandStep_iff.mpr ⟨_, _, _, h, rfl⟩
  | isOperand hne h =>
    rw [exprStep]
    exact (if_neg hne).trans (operandStep_iff.mpr ⟨_, _, _, h, rfl⟩)
  | argument h =>
    obtain ⟨hstar, hclose, hdistinct, -⟩ := h.ne
    rw [exprStep]
    simp only [if_neg hstar, if_neg hclose, if_neg hdistinct]
    exact operandStep_iff.mpr ⟨_, _, _, h, rfl⟩
  | subject h =>
    obtain ⟨-, -, -, hwhen⟩ := h.ne
    rw [exprStep]
    exact (if_neg hwhen).trans (operandStep_iff.mpr ⟨_, _, _, h, rfl⟩)
  | item h =>
    obtain ⟨-, hclose, -, -⟩ := h.ne
    rw [exprStep]
    exact (if_neg hclose).trans (operandStep_iff.mpr ⟨_, _, _, h, rfl⟩)
  | collation ht =>
    rw [exprStep, isName_eq_isNaming]
    exact if_pos ht
  | notLike ht =>
    cases t with
    | keyword k => cases k <;> first | rfl | exact absurd ht (by decide)
    | _ => exact absurd ht (by simp [isLikeWord])
  | _ => rfl

theorem afterOperand_cases {c : Clause} {m : Mode} {F : List Frame} {t : Token}
    {next : Option Token} {s : Step} (hm : m.isComplete) (h : afterOperand c F t next = .ok s) :
    (∃ u m' F', Move F next m t u m' F' ∧ s = ⟨none, .word u, .expr c m' F'⟩) ∨
      (m.isComplete ∧ (∀ f ∈ F, Passes next t f) ∧ c.endStep t = .ok s) := by
  unfold afterOperand at h
  split at h
  · rename_i m' F' hr
    obtain ⟨X, G, hF, hX, hG⟩ := resume_inside_iff.mp hr
    exact .inl ⟨_, _, _, .resume hm hF hX hG, (Except.ok.inj h).symm⟩
  · rename_i hr
    exact .inr ⟨hm, resume_outside_iff.mp hr, h⟩
  · cases h

/-- **A step inside an expression** is a move, or the expression is complete and the clause
decides. -/
theorem exprStep_cases {c : Clause} {m : Mode} {F : List Frame} {t : Token} {next : Option Token}
    {s : Step} (h : exprStep c m F t next = .ok s) :
    (∃ u m' F', Move F next m t u m' F' ∧ s = ⟨none, .word u, .expr c m' F'⟩) ∨
      (m.isComplete ∧ (∀ f ∈ F, Passes next t f) ∧ c.endStep t = .ok s) := by
  -- every mode is a chain of tests for single tokens, then an operand or what follows one
  cases m with
  | name | operandEnd | end_ =>
    rw [exprStep] at h
    repeat' split at h
    all_goals first
      | exact afterOperand_cases rfl h
      | (subst t
         exact .inl ⟨_, _, _, by constructor, (Except.ok.inj h).symm⟩)
  | operand =>
    obtain ⟨u, m', F', hs, rfl⟩ := operandStep_iff.mp h
    exact .inl ⟨_, _, _, .operand hs, rfl⟩
  | signed =>
    obtain ⟨u, m', F', hs, rfl⟩ := operandStep_iff.mp h
    exact .inl ⟨_, _, _, .signed hs, rfl⟩
  | isOperand =>
    rw [exprStep] at h
    split at h
    · subst t
      exact .inl ⟨_, _, _, .isNot, (Except.ok.inj h).symm⟩
    · rename_i hne
      obtain ⟨u, m', F', hs, rfl⟩ := operandStep_iff.mp h
      exact .inl ⟨_, _, _, .isOperand hne hs, rfl⟩
  | argumentList =>
    rw [exprStep] at h
    repeat' split at h
    case isFalse.isFalse.isFalse =>
      obtain ⟨u, m', F', hs, rfl⟩ := operandStep_iff.mp h
      exact .inl ⟨_, _, _, .argument hs, rfl⟩
    all_goals
      subst t
      exact .inl ⟨_, _, _, by constructor, (Except.ok.inj h).symm⟩
  | case_ =>
    rw [exprStep] at h
    split at h
    · subst t
      exact .inl ⟨_, _, _, .when_, (Except.ok.inj h).symm⟩
    · obtain ⟨u, m', F', hs, rfl⟩ := operandStep_iff.mp h
      exact .inl ⟨_, _, _, .subject hs, rfl⟩
  | inItems =>
    rw [exprStep] at h
    split at h
    · subst t
      exact .inl ⟨_, _, _, .noItem, (Except.ok.inj h).symm⟩
    · obtain ⟨u, m', F', hs, rfl⟩ := operandStep_iff.mp h
      exact .inl ⟨_, _, _, .item hs, rfl⟩
  | collation =>
    rw [exprStep, isName_eq_isNaming] at h
    split at h
    · rename_i ht
      exact .inl ⟨_, _, _, .collation ht, (Except.ok.inj h).symm⟩
    · cases h
  | negated =>
    unfold exprStep at h
    simp only at h
    split at h
    case h_4 k _ _ _ =>
      split at h
      · rename_i hk
        rw [← isLikeWord_keyword] at hk
        exact .inl ⟨_, _, _, .notLike hk, (Except.ok.inj h).symm⟩
      · cases h
    case h_5 => cases h
    all_goals exact .inl ⟨_, _, _, by constructor, (Except.ok.inj h).symm⟩
  | member | call | callEnd | inList =>
    rw [exprStep] at h
    simp only at h
    split at h
    · subst t
      exact .inl ⟨_, _, _, by constructor, (Except.ok.inj h).symm⟩
    · cases h

end TreeQuery.Query
