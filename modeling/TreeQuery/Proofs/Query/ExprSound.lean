import TreeQuery.Proofs.Query.ExprRun

/-!
# What is read as an expression derives from the grammar

A run stops in the middle of many constructs at once, so what is proved of a move is about the
tokens still to come. `Rest F` holds the token lists that may follow a complete operand under the
frames `F`: each frame takes its part of them, the innermost first. `Finishes m` holds those that
finish an operand begun in mode `m`. A move carries both back over the token it reads
(`Move.owed`).

**`IsExpression.expr`**: the tokens of an expression derive from the grammar.
-/

namespace TreeQuery.Query

open Grammar

/-! ## The tokens still to come -/

/-- `u` may follow whatever derives from `A`, and the whole derives from `B`. -/
def Extends (A B : Nonterminal) (u : List Token) : Prop :=
  ∀ e, Derives A e → Derives B (e ++ u)

/-- The end of a CASE after one of its results. -/
def CaseEnd (u : List Token) : Prop :=
  ∃ ws d, u = ws ++ (d ++ [.keyword .end_]) ∧ (ws = [] ∨ Derives .whens ws) ∧ Derives .default d

/-- The list of IN with its parentheses. -/
def InItems (u : List Token) : Prop :=
  u = [.symbol .openParen, .symbol .closeParen] ∨
    ∃ v, u = .symbol .openParen :: (v ++ [.symbol .closeParen]) ∧ Derives .list v

/-- **What may follow a complete operand** under the frames. -/
def Rest : List Frame → List Token → Prop
  | [], w => w = []
  | .operators l :: F, w => ∃ u v, w = u ++ v ∧ Extends (.expr l) (.expr l) u ∧ Rest F v
  | .pattern :: F, w =>
    Rest F w ∨ ∃ u v, w = .keyword .escape :: (u ++ v) ∧ Derives (.expr 5) u ∧ Rest F v
  | .lowerBound :: F, w =>
    ∃ u v, w = .keyword .and_ :: (u ++ v) ∧ Derives (.expr 5) u ∧ Rest F v
  | .list :: F, w =>
    ∃ u v, w = u ++ .symbol .closeParen :: v ∧ Extends (.expr 1) .list u ∧ Rest F v
  | .arguments :: F, w | .group :: F, w =>
    ∃ u c v, w = u ++ .symbol .closeParen :: (c ++ v) ∧ Extends (.expr 1) .list u ∧
      Derives .collations c ∧ Rest F v
  | .caseSubject :: F, w =>
    ∃ ws d c v, w = ws ++ (d ++ .keyword .end_ :: (c ++ v)) ∧ Derives .whens ws ∧
      Derives .default d ∧ Derives .collations c ∧ Rest F v
  | .caseCondition :: F, w =>
    ∃ r u c v, w = .keyword .then_ :: (r ++ (u ++ (c ++ v))) ∧ Derives (.expr 1) r ∧ CaseEnd u ∧
      Derives .collations c ∧ Rest F v
  | .caseResult :: F, w =>
    ∃ u c v, w = u ++ (c ++ v) ∧ CaseEnd u ∧ Derives .collations c ∧ Rest F v
  | .caseDefault :: F, w =>
    ∃ c v, w = .keyword .end_ :: (c ++ v) ∧ Derives .collations c ∧ Rest F v

/-- **What finishes an operand** that is begun, or is still to begin, in a mode. -/
def Finishes : Mode → List Token → Prop
  | .operand, u => ∀ p, Derives (.expr p) u
  | .signed, u => Derives .unary u
  | .isOperand, u => ∃ n e, u = n ++ e ∧ MaybeNot n ∧ ∀ p, Derives (.expr p) e
  | .name, u => Derives .unary (.ident :: u)
  | .member, u => Derives .unary (.ident :: .symbol .dot :: u)
  | .call, u => ∀ f, isFunction f → Derives .unary (f :: u)
  | .argumentList, u => ∀ f, isFunction f → Derives .unary (f :: .symbol .openParen :: u)
  | .callEnd, u =>
    ∀ f, isFunction f → Derives .unary (f :: .symbol .openParen :: .symbol .star :: u)
  | .case_, u => Derives .unary (.keyword .case_ :: u)
  | .operandEnd, u => Derives .collations u
  | .collation, u => Derives .collations (.keyword .collate :: u)
  | .end_, u => u = []
  | .inList, u => InItems u
  | .inItems, u => InItems (.symbol .openParen :: u)
  | .negated, u => ∀ l ≤ 4, Extends (.expr l) (.expr l) (.keyword .not_ :: u)

/-- The tokens that lead from a mode and frames to the end of the expression. -/
def Owed (m : Mode) (F : List Frame) (w : List Token) : Prop :=
  ∃ u v, w = u ++ v ∧ Finishes m u ∧ Rest F v

theorem Extends.nil {A : Nonterminal} : Extends A A [] := by
  intro e he
  rwa [List.append_nil]

theorem Extends.append {A B C : Nonterminal} {u v : List Token} (hu : Extends A B u)
    (hv : Extends B C v) : Extends A C (u ++ v) := by
  intro e he
  rw [← List.append_assoc]
  exact hv _ (hu e he)

/-- Frames that may stay open demand nothing. -/
theorem Rest.of_isLoose {X G : List Frame} {w : List Token} (hX : ∀ f ∈ X, f.isLoose)
    (h : Rest G w) : Rest (X ++ G) w := by
  induction X with
  | nil => exact h
  | cons f X ih =>
    obtain ⟨hf, hX'⟩ := List.forall_mem_cons.mp hX
    cases f with
    | operators l => exact ⟨[], w, rfl, .nil, ih hX'⟩
    | pattern => exact .inl (ih hX')
    | _ => exact absurd hf (by decide)

theorem Finishes.of_isComplete {m : Mode} (hm : m.isComplete) : Finishes m [] := by
  cases m with
  | name => exact .primary .name .noCollation
  | operandEnd => exact .noCollation
  | end_ => rfl
  | _ => exact absurd hm (by decide)

/-- A complete operand needs no more tokens. -/
theorem Owed.of_isComplete {m : Mode} {F : List Frame} (hm : m.isComplete)
    (hF : ∀ f ∈ F, f.isLoose) : Owed m F [] := by
  have hrest : Rest F [] := by
    have := Rest.of_isLoose (G := []) hF rfl
    rwa [List.append_nil] at this
  exact ⟨[], [], rfl, .of_isComplete hm, hrest⟩

/-! ## Back over one token -/

theorem Owed.operand_of_signed {F : List Frame} {w : List Token} (h : Owed .signed F w) :
    Owed .operand F w := by
  obtain ⟨u, v, rfl, hu, hv⟩ := h
  exact ⟨u, v, rfl, fun _ => .unary hu, hv⟩

theorem Owed.expr {l : Nat} {F : List Frame} {w : List Token}
    (h : Owed .operand (.operators l :: F) w) :
    ∃ u r, w = u ++ r ∧ Derives (.expr l) u ∧ Rest F r := by
  obtain ⟨u, _, rfl, hu, x, r, rfl, hx, hr⟩ := h
  exact ⟨u ++ x, r, by simp, hx _ (hu l), hr⟩

/-- The expressions between parentheses, their end, and what follows it. -/
theorem Owed.parenthesized {f : Frame} {F : List Frame} {w : List Token}
    (hf : f = .group ∨ f = .arguments) (h : Owed .operand (.operators 1 :: f :: F) w) :
    ∃ v c r, w = v ++ .symbol .closeParen :: (c ++ r) ∧ Derives .list v ∧
      Derives .collations c ∧ Rest F r := by
  obtain ⟨u, _, rfl, hu, hrest⟩ := h.expr
  rcases hf with rfl | rfl <;>
  · obtain ⟨y, c, r, rfl, hy, hc, hr⟩ := hrest
    exact ⟨u ++ y, c, r, by simp, hy _ hu, hc, hr⟩

theorem Starts.owed {F : List Frame} {next : Option Token} {b : Bool} {t : Token} {u : Bool}
    {m : Mode} {F' : List Frame} {w : List Token} (h : Starts F next b t u m F')
    (hw : Owed m F' w) : Owed .signed F (t :: w) ∨ b ∧ Owed .operand F (t :: w) := by
  cases h with
  | literal ht =>
    obtain ⟨c, v, rfl, hc, hv⟩ := hw
    exact .inl ⟨_, v, rfl, .primary (.literal ht) hc, hv⟩
  | name =>
    obtain ⟨c, v, rfl, hc, hv⟩ := hw
    exact .inl ⟨_, v, rfl, hc, hv⟩
  | group =>
    obtain ⟨v, c, r, rfl, hl, hc, hr⟩ := hw.parenthesized (.inl rfl)
    exact .inl ⟨_, r, by simp, .primary (.group hl) hc, hr⟩
  | sign ht =>
    obtain ⟨v, r, rfl, hv, hr⟩ := hw
    refine .inl ⟨t :: v, r, rfl, ?_, hr⟩
    have := Derives.sign ht hv .noCollation
    rwa [List.append_nil] at this
  | case_ =>
    obtain ⟨v, r, rfl, hv, hr⟩ := hw
    exact .inl ⟨_, r, rfl, hv, hr⟩
  | not hb =>
    obtain ⟨v, _, rfl, hv, x, r, rfl, hx, hr⟩ := hw
    refine .inr ⟨hb, .keyword .not_ :: (v ++ x), r, by simp, fun p => ?_, hr⟩
    exact .not (hx _ (hv 3))
  | function ht _ =>
    obtain ⟨v, r, rfl, hv, hr⟩ := hw
    exact .inl ⟨_, r, rfl, hv t (by simp [isFunction, ht]), hr⟩

theorem Starts.owed_operand {F : List Frame} {next : Option Token} {t : Token} {u : Bool}
    {m : Mode} {F' : List Frame} {w : List Token} (h : Starts F next true t u m F')
    (hw : Owed m F' w) : Owed .operand F (t :: w) := by
  rcases h.owed hw with h | ⟨-, h⟩
  · exact h.operand_of_signed
  · exact h

/-! ### After an operand -/

/-- The pattern of LIKE, perhaps with its ESCAPE. -/
def LikeOperand (u : List Token) : Prop :=
  Derives (.expr 5) u ∨ ∃ v w, u = v ++ .keyword .escape :: w ∧ Derives (.expr 5) v ∧
    Derives (.expr 5) w

/-- Both bounds of BETWEEN. -/
def Bounds (u : List Token) : Prop :=
  ∃ v w, u = v ++ .keyword .and_ :: w ∧ Derives (.expr 5) v ∧ Derives (.expr 5) w

theorem Owed.likeOperand {F : List Frame} {w : List Token}
    (h : Owed .operand (.operators 5 :: .pattern :: F) w) :
    ∃ u r, w = u ++ r ∧ LikeOperand u ∧ Rest F r := by
  obtain ⟨v, _, rfl, hv, hr | ⟨e, r, rfl, he, hr⟩⟩ := h.expr
  · exact ⟨v, _, rfl, .inl hv, hr⟩
  · exact ⟨v ++ .keyword .escape :: e, r, by simp, .inr ⟨v, e, rfl, hv, he⟩, hr⟩

theorem Owed.bounds {F : List Frame} {w : List Token}
    (h : Owed .operand (.operators 5 :: .lowerBound :: F) w) :
    ∃ u r, w = u ++ r ∧ Bounds u ∧ Rest F r := by
  obtain ⟨v, _, rfl, hv, e, r, rfl, he, hr⟩ := h.expr
  exact ⟨v ++ .keyword .and_ :: e, r, by simp, ⟨v, e, rfl, hv, he⟩, hr⟩

theorem extends_in {l : Nat} (hl : l ≤ 4) {n u : List Token} (hn : MaybeNot n)
    (hu : InItems u) : Extends (.expr l) (.expr l) (n ++ .keyword .in_ :: u) := by
  intro e he
  rcases hu with rfl | ⟨v, rfl, hv⟩
  · exact .inEmpty hl he hn
  · exact .inList hl he hn hv

theorem extends_between {l : Nat} (hl : l ≤ 4) {n u : List Token} (hn : MaybeNot n)
    (hu : Bounds u) : Extends (.expr l) (.expr l) (n ++ .keyword .between :: u) := by
  intro e he
  obtain ⟨v, w, rfl, hv, hw⟩ := hu
  exact .between hl he hn hv hw

theorem extends_like {l : Nat} (hl : l ≤ 4) {n u : List Token} {k : Token} (hn : MaybeNot n)
    (hk : isLikeWord k) (hu : LikeOperand u) : Extends (.expr l) (.expr l) (n ++ k :: u) := by
  intro e he
  rcases hu with hv | ⟨v, w, rfl, hv, hw⟩
  · exact .like hl he hn hk hv
  · exact .likeEscape hl he hn hk hv hw

/-- The frame under which an operator was taken goes on after the operator's operands. -/
theorem Rest.operators {l : Nat} {F : List Frame} {u r : List Token}
    (hu : Extends (.expr l) (.expr l) u) (hr : Rest (.operators l :: F) r) :
    Rest (.operators l :: F) (u ++ r) := by
  obtain ⟨x, r, rfl, hx, hr⟩ := hr
  exact ⟨u ++ x, r, by simp, hu.append hx, hr⟩

theorem Operates.rest {next : Option Token} {t : Token} {op : Operator} {l : Nat}
    {F : List Frame} {w : List Token} (h : Operates next t op) (hl : l ≤ op.level)
    (hw : Owed (op.enter (.operators l :: F)).1 (op.enter (.operators l :: F)).2 w) :
    Rest (.operators l :: F) (t :: w) := by
  have hnone : MaybeNot [] := .inl rfl
  cases h with
  | binary ht =>
    obtain ⟨v, r, rfl, hv, hr⟩ := hw.expr
    exact Rest.operators (u := t :: v) (fun e he => .binary he ht hl hv) hr
  | is_ =>
    obtain ⟨_, _, rfl, ⟨n, e, rfl, hn, he⟩, x, r, rfl, hx, hr⟩ := hw
    have hv : Derives (.expr 5) (e ++ x) := hx _ (he 5)
    have := Rest.operators (u := .keyword .is_ :: (n ++ (e ++ x)))
      (fun a ha => .is_ hl ha hn hv) hr
    simpa using this
  | in_ =>
    obtain ⟨v, r, rfl, hv, hr⟩ := hw
    exact Rest.operators (extends_in hl hnone hv) hr
  | between =>
    obtain ⟨v, r, rfl, hv, hr⟩ := hw.bounds
    exact Rest.operators (extends_between hl hnone hv) hr
  | like ht =>
    obtain ⟨v, r, rfl, hv, hr⟩ := hw.likeOperand
    exact Rest.operators (extends_like hl hnone ht hv) hr
  | isNull =>
    obtain ⟨_, r, rfl, rfl, hr⟩ := hw
    exact Rest.operators (u := [.keyword .isNull]) (fun e he => .isNull hl he) hr
  | notNull =>
    obtain ⟨_, r, rfl, rfl, hr⟩ := hw
    exact Rest.operators (u := [.keyword .notNull]) (fun e he => .notNull hl he) hr
  | negation _ =>
    obtain ⟨v, r, rfl, hv, hr⟩ := hw
    exact Rest.operators (hv l hl) hr

/-- The alternatives of CASE from a WHEN on, and what follows them. -/
theorem Owed.whens {F : List Frame} {w : List Token}
    (h : Owed .operand (.operators 1 :: .caseCondition :: F) w) :
    ∃ ws d c r, .keyword .when_ :: w = ws ++ (d ++ .keyword .end_ :: (c ++ r)) ∧
      Derives .whens ws ∧ Derives .default d ∧ Derives .collations c ∧ Rest F r := by
  obtain ⟨v, _, rfl, hv, e, _, c, r, rfl, he, ⟨ws, d, rfl, hws, hd⟩, hc, hr⟩ := h.expr
  rcases hws with rfl | hws
  · exact ⟨_, d, c, r, by simp, .when_ hv he, hd, hc, hr⟩
  · exact ⟨_, d, c, r, by simp, .whens hv he hws, hd, hc, hr⟩

theorem Takes.rest {next : Option Token} {F : List Frame} {t : Token} {m : Mode}
    {F' : List Frame} {w : List Token} (h : Takes next F t m F') (hw : Owed m F' w) :
    Rest F (t :: w) := by
  cases h with
  | operator hop hl => exact hop.rest hl hw
  | escape =>
    obtain ⟨v, r, rfl, hv, hr⟩ := hw.expr
    exact .inr ⟨v, r, rfl, hv, hr⟩
  | and_ =>
    obtain ⟨v, r, rfl, hv, hr⟩ := hw.expr
    exact ⟨v, r, rfl, hv, hr⟩
  | nextItem =>
    obtain ⟨v, _, rfl, hv, y, r, rfl, hy, hr⟩ := hw.expr
    exact ⟨.symbol .comma :: (v ++ y), r, by simp, fun e he => .comma he (hy _ hv), hr⟩
  | nextArgument | nextMember =>
    obtain ⟨v, _, rfl, hv, y, c, r, rfl, hy, hc, hr⟩ := hw.expr
    exact ⟨.symbol .comma :: (v ++ y), c, r, by simp, fun e he => .comma he (hy _ hv), hc, hr⟩
  | closeList =>
    obtain ⟨_, r, rfl, rfl, hr⟩ := hw
    exact ⟨[], r, rfl, fun e he => by rw [List.append_nil]; exact .single he, hr⟩
  | closeCall | closeGroup =>
    obtain ⟨c, r, rfl, hc, hr⟩ := hw
    exact ⟨[], c, r, rfl, fun e he => by rw [List.append_nil]; exact .single he, hc, hr⟩
  | firstWhen => exact hw.whens
  | then_ =>
    obtain ⟨v, _, rfl, hv, u, c, r, rfl, hu, hc, hr⟩ := hw.expr
    exact ⟨v, u, c, r, rfl, hv, hu, hc, hr⟩
  | nextWhen =>
    obtain ⟨ws, d, c, r, hw, hws, hd, hc, hr⟩ := hw.whens
    exact ⟨ws ++ (d ++ [.keyword .end_]), c, r, by simp [hw], ⟨ws, d, rfl, .inr hws, hd⟩, hc, hr⟩
  | else_ =>
    obtain ⟨v, _, rfl, hv, c, r, rfl, hc, hr⟩ := hw.expr
    exact ⟨.keyword .else_ :: (v ++ [.keyword .end_]), c, r, by simp,
      ⟨[], .keyword .else_ :: v, by simp, .inl rfl, .default hv⟩, hc, hr⟩
  | endResult =>
    obtain ⟨c, r, rfl, hc, hr⟩ := hw
    exact ⟨[.keyword .end_], c, r, rfl, ⟨[], [], rfl, .inl rfl, .noDefault⟩, hc, hr⟩
  | endDefault =>
    obtain ⟨c, r, rfl, hc, hr⟩ := hw
    exact ⟨c, r, rfl, hc, hr⟩

/-! ### Every move -/

/-- **One move back**: what completes the expression after a move completes it before the move,
with the token of the move in front. -/
theorem Move.owed {F : List Frame} {next : Option Token} {m : Mode} {t : Token} {u : Bool}
    {m' : Mode} {F' : List Frame} {w : List Token} (h : Move F next m t u m' F')
    (hw : Owed m' F' w) : Owed m F (t :: w) := by
  have hnot : MaybeNot [.keyword .not_] := .inr rfl
  cases h with
  | operand h => exact h.owed_operand hw
  | signed h =>
    rcases h.owed hw with h | ⟨h, -⟩
    · exact h
    · cases h
  | isNot =>
    obtain ⟨v, r, rfl, hv, hr⟩ := hw
    exact ⟨.keyword .not_ :: v, r, rfl, ⟨_, v, rfl, hnot, hv⟩, hr⟩
  | isOperand _ h =>
    obtain ⟨v, r, hvr, hv, hr⟩ := h.owed_operand hw
    exact ⟨v, r, hvr, ⟨[], v, rfl, .inl rfl, hv⟩, hr⟩
  | dot | collate | star | inList =>
    obtain ⟨v, r, rfl, hv, hr⟩ := hw
    exact ⟨_ :: v, r, rfl, hv, hr⟩
  | nameCall =>
    obtain ⟨v, r, rfl, hv, hr⟩ := hw
    exact ⟨_ :: v, r, rfl, hv .ident rfl, hr⟩
  | call =>
    obtain ⟨v, r, rfl, hv, hr⟩ := hw
    exact ⟨_ :: v, r, rfl, fun f hf => hv f hf, hr⟩
  | collateName =>
    obtain ⟨v, r, rfl, hv, hr⟩ := hw
    exact ⟨_ :: v, r, rfl, .primary .name hv, hr⟩
  | member =>
    obtain ⟨c, r, rfl, hc, hr⟩ := hw
    exact ⟨_ :: c, r, rfl, .primary .member hc, hr⟩
  | noArgument =>
    obtain ⟨c, r, rfl, hc, hr⟩ := hw
    exact ⟨_ :: c, r, rfl, fun f hf => .primary (.callEmpty hf) hc, hr⟩
  | callEnd =>
    obtain ⟨c, r, rfl, hc, hr⟩ := hw
    exact ⟨_ :: c, r, rfl, fun f hf => .primary (.callStar hf) hc, hr⟩
  | distinct =>
    obtain ⟨v, c, r, rfl, hv, hc, hr⟩ := hw.parenthesized (.inr rfl)
    refine ⟨.keyword .distinct :: (v ++ .symbol .closeParen :: c), r, by simp, fun f hf => ?_, hr⟩
    simpa using Derives.primary (.call hf (.inr rfl) hv) hc
  | argument h =>
    obtain ⟨v, c, r, hw, hv, hc, hr⟩ := (h.owed_operand hw).parenthesized (.inr rfl)
    refine ⟨v ++ .symbol .closeParen :: c, r, by simp [hw], fun f hf => ?_, hr⟩
    simpa using Derives.primary (.call hf (.inl rfl) hv) hc
  | when_ =>
    obtain ⟨ws, d, c, r, hw, hws, hd, hc, hr⟩ := hw.whens
    refine ⟨ws ++ (d ++ .keyword .end_ :: c), r, by simp [hw], ?_, hr⟩
    show Derives .unary (.keyword .case_ :: _)
    simpa using Derives.primary (.case_ hws hd) hc
  | subject h =>
    obtain ⟨v, _, hw, hv, ws, d, c, r, rfl, hws, hd, hc, hr⟩ := (h.owed_operand hw).expr
    refine ⟨v ++ (ws ++ (d ++ .keyword .end_ :: c)), r, by simp [hw], ?_, hr⟩
    show Derives .unary (.keyword .case_ :: _)
    simpa using Derives.primary (.caseOf hv hws hd) hc
  | collation ht =>
    obtain ⟨c, r, rfl, hc, hr⟩ := hw
    exact ⟨_ :: c, r, rfl, .collation ht hc, hr⟩
  | noItem =>
    obtain ⟨_, r, rfl, rfl, hr⟩ := hw
    exact ⟨[_], r, rfl, .inl rfl, hr⟩
  | item h =>
    obtain ⟨v, _, hw, hv, y, r, rfl, hy, hr⟩ := (h.owed_operand hw).expr
    exact ⟨v ++ (y ++ [.symbol .closeParen]), r, by simp [hw],
      .inr ⟨v ++ y, by simp, hy _ hv⟩, hr⟩
  | notIn =>
    obtain ⟨v, r, rfl, hv, hr⟩ := hw
    exact ⟨_ :: v, r, rfl, fun l hl => extends_in hl hnot hv, hr⟩
  | notBetween =>
    obtain ⟨v, r, rfl, hv, hr⟩ := hw.bounds
    exact ⟨_ :: v, r, rfl, fun l hl => extends_between hl hnot hv, hr⟩
  | notNull =>
    obtain ⟨_, r, rfl, rfl, hr⟩ := hw
    exact ⟨[_], r, rfl, fun l hl e he => .notNullApart hl he, hr⟩
  | notLike ht =>
    obtain ⟨v, r, rfl, hv, hr⟩ := hw.likeOperand
    exact ⟨_ :: v, r, rfl, fun l hl => extends_like hl hnot ht hv, hr⟩
  | resume hm hF hX hG =>
    refine ⟨[], t :: w, rfl, .of_isComplete hm, ?_⟩
    rw [hF]
    exact .of_isLoose (fun f hf => isLoose_of_passes (hX f hf)) (hG.rest hw)

theorem Reads.owed {next : Option Token} {m m' : Mode} {F F' : List Frame} {f : Fragment}
    (h : Reads next m F f m' F') (hm : m'.isComplete) (hF : ∀ g ∈ F', g.isLoose) :
    Owed m F (f.map Word.token) := by
  induction h with
  | done => exact .of_isComplete hm hF
  | word hmove _ ih => exact hmove.owed (ih hm hF)

/-- **The tokens of an expression derive from the grammar.** -/
theorem Fragment.IsExpression.expr {f : Fragment} (h : f.IsExpression) :
    Expr (f.map Word.token) := by
  obtain ⟨m, F, hreads, hm, hF⟩ := h
  obtain ⟨u, r, hf, hu, hr⟩ := (hreads.owed hm hF).expr
  obtain rfl : r = [] := hr
  rw [List.append_nil] at hf
  rw [hf]
  exact hu

end TreeQuery.Query
