import TreeQuery.Proofs.Query.ExprRun

/-!
# What derives from the grammar is read as an expression

The automaton is greedy: an operator goes to the innermost open operand that admits it, ESCAPE to
the innermost LIKE, AND to the innermost BETWEEN if one is open above every looser operand. A
derivation may mean an outer one. The reading still goes through, because giving a token to an
inner frame only keeps more frames open, and a frame that may stay open (`Frame.isLoose`) never
takes a token that an outer construct cannot do without.

`Readable A w` says this for the token lists of a nonterminal: read on top of any frames, `w` leaves
those frames open that it must, and above them only `Slack` ones. The bound of `Slack` is what
keeps AND for BETWEEN: above a lower bound only operands of level 3 or more are open.

**`exists_isExpression`**: lexemes whose tokens derive from the grammar are an expression.
-/

namespace TreeQuery.Query

open Grammar

/-! ## Runs over tokens -/

/-- A run over words with these tokens, whatever token follows. -/
def Runs (m : Mode) (F : List Frame) (w : List Token) (m' : Mode) (F' : List Frame) : Prop :=
  ∀ next, ∃ f : Fragment, f.map Word.token = w ∧ Reads next m F f m' F'

theorem Runs.nil {m : Mode} {F : List Frame} : Runs m F [] m F :=
  fun _ => ⟨[], rfl, .done⟩

theorem Runs.cons {m m' m'' : Mode} {F F' F'' : List Frame} {t : Token} {u : Bool}
    {w : List Token} (ht : ∀ next, Move F next m t u m' F') (hw : Runs m' F' w m'' F'') :
    Runs m F (t :: w) m'' F'' := by
  intro next
  obtain ⟨f, hf, hreads⟩ := hw next
  exact ⟨⟨t, [], u⟩ :: f, congrArg (t :: ·) hf, .word (ht _) hreads⟩

/-- A move that looks at the token after it. -/
theorem Runs.cons₂ {m m' m'' : Mode} {F F' F'' : List Frame} {t t' : Token} {u : Bool}
    {w : List Token} (ht : Move F (some t') m t u m' F') (hw : Runs m' F' (t' :: w) m'' F'') :
    Runs m F (t :: t' :: w) m'' F'' := by
  intro next
  obtain ⟨f, hf, hreads⟩ := hw next
  cases f with
  | nil => cases hf
  | cons v f =>
    refine ⟨⟨t, [], u⟩ :: v :: f, congrArg (t :: ·) hf, .word ?_ hreads⟩
    rwa [Fragment.lead, (List.cons.inj hf).1]

theorem Runs.append {m m' m'' : Mode} {F F' F'' : List Frame} {w v : List Token}
    (hw : Runs m F w m' F') (hv : Runs m' F' v m'' F'') : Runs m F (w ++ v) m'' F'' := by
  intro next
  obtain ⟨g, hg, hreads⟩ := hv next
  obtain ⟨f, hf, hreads'⟩ := hw (Fragment.lead next g)
  exact ⟨f ++ g, by rw [List.map_append, hf, hg], hreads'.append hreads⟩

/-- A run from an operand starts as well where that operand may come first. -/
theorem Runs.of_operand {m m' : Mode} {F F₀ F' : List Frame} {w : List Token}
    (hw : Runs .operand F₀ w m' F') (hm : m'.isComplete)
    (hstart : ∀ {next t u m₁ F₁}, Starts F₀ next true t u m₁ F₁ → Move F next m t u m₁ F₁) :
    Runs m F w m' F' := by
  intro next
  obtain ⟨f, hf, hreads⟩ := hw next
  refine ⟨f, hf, ?_⟩
  cases hreads with
  | done => exact absurd hm (by decide)
  | word hmove hrest =>
    refine .word ?_ hrest
    generalize Word.unary _ = u at hmove ⊢
    cases hmove with
    | operand h => exact hstart h
    | resume hm' => exact absurd hm' (by decide)

/-! ## The frames above a base -/

/-- A frame that may stay open, of level `b` or more if it takes operators. -/
def Slack (b : Nat) : Frame → Prop
  | .operators l => b ≤ l
  | .pattern => True
  | _ => False

theorem Slack.isLoose {b : Nat} {f : Frame} (h : Slack b f) : f.isLoose := by
  cases f <;> first | rfl | exact h.elim

theorem Operates.eq_negation {next : Option Token} {o : Operator}
    (h : Operates next (.keyword .not_) o) : o = .negation := by
  cases h with
  | negation _ => rfl
  | binary ht | like ht => cases ht

/-- A token is one operator at most, whatever token follows it. -/
theorem Operates.unique {next next' : Option Token} {t : Token} {o o' : Operator}
    (h : Operates next t o) (h' : Operates next' t o') : o = o' := by
  by_cases ht : t = .keyword .not_
  · subst ht
    rw [h.eq_negation, h'.eq_negation]
  · exact Option.some.inj ((ofToken?_eq_some_iff.mpr (h.congr_next fun e => absurd e ht)).symm.trans
      (ofToken?_eq_some_iff.mpr h'))

theorem Operates.ne_escape {next : Option Token} {t : Token} {o : Operator}
    (h : Operates next t o) : t ≠ .keyword .escape := by
  rintro rfl
  cases h with
  | binary ht | like ht => cases ht

/-- Above a frame that admits an operator, the innermost frame that admits it splits the slack
frames. -/
theorem exists_split_operator {o : Operator} {l b : Nat} (hl : l ≤ o.level) (F : List Frame) :
    ∀ {X : List Frame}, (∀ f ∈ X, Slack b f) →
      ∃ Z Y l' G, X ++ .operators l :: F = Z ++ .operators l' :: G ∧
        .operators l' :: G = Y ++ .operators l :: F ∧ l' ≤ o.level ∧ (∀ f ∈ Y, Slack b f) ∧
        ∀ f ∈ Z, ∀ {next t}, Operates next t o → Passes next t f
  | [], _ => ⟨[], [], l, F, rfl, rfl, hl, by simp, by simp⟩
  | f :: X, hX => by
    obtain ⟨hf, hX'⟩ := List.forall_mem_cons.mp hX
    by_cases hadmit : ∃ l', f = .operators l' ∧ l' ≤ o.level
    · obtain ⟨l', rfl, hl'⟩ := hadmit
      exact ⟨[], .operators l' :: X, l', X ++ .operators l :: F, rfl, rfl, hl', hX, by simp⟩
    · obtain ⟨Z, Y, l', G, hXF, hY, hl', hYs, hZ⟩ := exists_split_operator hl F hX'
      refine ⟨f :: Z, Y, l', G, congrArg (f :: ·) hXF, hY, hl', hYs, ?_⟩
      refine List.forall_mem_cons.mpr ⟨?_, hZ⟩
      intro next t ho
      cases f with
      | operators k =>
        intro o' ho'
        obtain rfl := ho.unique ho'
        exact Nat.not_le.mp fun h => hadmit ⟨k, rfl, h⟩
      | pattern => exact ho.ne_escape
      | _ => exact hf.elim

/-- **The innermost frame that admits an operator takes it.** If a frame below slack ones admits
it, only slack frames above that frame are left open. -/
theorem exists_move_operator {o : Operator} {l b : Nat} (hl : l ≤ o.level) (F : List Frame)
    {X : List Frame} (hX : ∀ f ∈ X, Slack b f) :
    ∃ Y, (∀ f ∈ Y, Slack b f) ∧ ∀ {next t m}, m.isComplete → Operates next t o →
      Move (X ++ .operators l :: F) next m t false (o.enter (Y ++ .operators l :: F)).1
        (o.enter (Y ++ .operators l :: F)).2 := by
  obtain ⟨Z, Y, l', G, hXF, hY, hl', hYs, hZ⟩ := exists_split_operator hl F hX
  refine ⟨Y, hYs, fun hm ho => ?_⟩
  rw [← hY]
  exact .resume hm hXF (fun f hf => hZ f hf ho) (.operator ho hl')

/-- The innermost open pattern splits the slack frames. -/
theorem exists_split_pattern {b : Nat} (F : List Frame) :
    ∀ {X : List Frame}, (∀ f ∈ X, Slack b f) →
      ∃ Z Y, X ++ .pattern :: F = Z ++ .pattern :: (Y ++ F) ∧ (∀ f ∈ Y, Slack b f) ∧
        ∀ f ∈ Z, ∀ next, Passes next (.keyword .escape) f
  | [], _ => ⟨[], [], rfl, by simp, by simp⟩
  | f :: X, hX => by
    obtain ⟨hf, hX'⟩ := List.forall_mem_cons.mp hX
    cases f with
    | pattern =>
      refine ⟨[], X ++ [.pattern], by simp, ?_, by simp⟩
      intro f hf
      rcases List.mem_append.mp hf with hf | hf
      · exact hX' f hf
      · rw [List.mem_singleton.mp hf]; trivial
    | operators k =>
      obtain ⟨Z, Y, hXF, hYs, hZ⟩ := exists_split_pattern F hX'
      refine ⟨.operators k :: Z, Y, congrArg (_ :: ·) hXF, hYs, ?_⟩
      exact List.forall_mem_cons.mpr ⟨fun next o ho => absurd rfl ho.ne_escape, hZ⟩
    | _ => exact hf.elim

/-- ESCAPE goes to the innermost open pattern. -/
theorem exists_move_escape {b : Nat} (F : List Frame) {X : List Frame}
    (hX : ∀ f ∈ X, Slack b f) :
    ∃ Y, (∀ f ∈ Y, Slack b f) ∧ ∀ {next m}, m.isComplete →
      Move (X ++ .pattern :: F) next m (.keyword .escape) false .operand
        (.operators 5 :: (Y ++ F)) := by
  obtain ⟨Z, Y, hXF, hY, hZ⟩ := exists_split_pattern F hX
  exact ⟨Y, hY, fun hm => .resume hm hXF (fun f hf => hZ f hf _) .escape⟩

/-- The tokens that close a construct inside an expression, AND apart. -/
def isCloser : Token → Bool
  | .symbol .comma | .symbol .closeParen => true
  | .keyword .when_ | .keyword .then_ | .keyword .else_ | .keyword .end_ => true
  | _ => false

theorem not_operates_of_isCloser {t : Token} (ht : isCloser t) {next : Option Token}
    {op : Operator} : ¬ Operates next t op := by
  have hop : Operator.ofToken? next t = none := by
    cases t with
    | keyword k => cases k <;> first | rfl | exact absurd ht (by decide)
    | symbol s => cases s <;> first | rfl | exact absurd ht (by decide)
    | _ => rfl
  intro h
  exact nomatch hop.symm.trans (ofToken?_eq_some_iff.mpr h)

theorem passes_of_isCloser {t : Token} (ht : isCloser t) {next : Option Token} {f : Frame}
    (hf : f.isLoose) : Passes next t f := by
  refine passes_of_not_operates (fun _ => not_operates_of_isCloser ht) ?_ hf
  rintro rfl
  exact absurd ht (by decide)

/-- A closing token goes through frames that may stay open to the construct that it closes. -/
theorem move_past {t : Token} (ht : isCloser t) {m m' : Mode} (hm : m.isComplete)
    {X F F' : List Frame} (hX : ∀ f ∈ X, f.isLoose) {next : Option Token}
    (hT : Takes next F t m' F') : Move (X ++ F) next m t false m' F' :=
  .resume hm rfl (fun f hf => passes_of_isCloser ht (hX f hf)) hT

theorem move_closer {t : Token} (ht : isCloser t) {m m' : Mode} (hm : m.isComplete) {b l : Nat}
    {X F F' : List Frame} (hX : ∀ f ∈ X, Slack b f) {next : Option Token}
    (hT : Takes next F t m' F') : Move (X ++ .operators l :: F) next m t false m' F' := by
  rw [List.append_cons]
  refine move_past ht hm ?_ hT
  intro f hf
  rcases List.mem_append.mp hf with hf | hf
  · exact (hX f hf).isLoose
  · rw [List.mem_singleton.mp hf]
    rfl

theorem passes_and {next : Option Token} {f : Frame} (hf : Slack 3 f) :
    Passes next (.keyword .and_) f := by
  cases f with
  | operators l =>
    intro o ho
    have hand : Operates none (.keyword .and_) (.binary 2) := .binary rfl
    obtain rfl : o = .binary 2 := ho.unique hand
    exact hf
  | pattern => exact fun h => nomatch h
  | _ => exact hf.elim

/-- AND goes through operands of level 3 or more to the lower bound of BETWEEN. -/
theorem move_and {m : Mode} (hm : m.isComplete) {X F : List Frame} (hX : ∀ f ∈ X, Slack 3 f)
    {next : Option Token} :
    Move (X ++ .lowerBound :: F) next m (.keyword .and_) false .operand (.operators 5 :: F) :=
  .resume hm rfl (fun f hf => passes_and (hX f hf)) .and_

/-! ## The invariant -/

/-- Read from `m` and `G`, the tokens complete an operand and leave only slack frames above the
base. -/
def Completes (b : Nat) (m : Mode) (G : List Frame) (w : List Token) (base : List Frame) : Prop :=
  ∃ m' X, m'.isComplete ∧ (∀ f ∈ X, Slack b f) ∧ Runs m G w m' (X ++ base)

/-- The operand modes after a complete operand with no frames of its own. -/
def Settles (m : Mode) (F : List Frame) (w : List Token) : Prop :=
  ∃ m', (m' = .name ∨ m' = .operandEnd) ∧ Runs m F w m' F

/-- **What reading the token lists of a nonterminal does.** The base of an expression of level `p`
is a frame that admits every operator of level `p` or more; no operator has level 3, so a frame of
level 4 is as good as one of level 3. After IS the expression may begin in a mode of its own. -/
def Readable : Nonterminal → List Token → Prop
  | .expr p, w => ∀ {b l m X F}, b ≤ 3 → b ≤ p + 1 → (l ≤ p ∨ p = 3 ∧ l ≤ 4) →
      (m = .operand ∨ m = .isOperand ∧ l ≤ 4) → (∀ f ∈ X, Slack b f) →
      Completes b m (X ++ .operators l :: F) w (.operators l :: F)
  | .unary, w | .primary, w => ∀ {m F}, (m = .operand ∨ m = .signed ∨ m = .isOperand) →
      Settles m F w
  | .collations, w => ∀ {m F}, (m = .name ∨ m = .operandEnd) → Settles m F w
  | .list, w => ∀ {f F}, (∀ next, Takes next (f :: F) (.symbol .comma) .operand
      (.operators 1 :: f :: F)) →
      Completes 2 .operand (.operators 1 :: f :: F) w (.operators 1 :: f :: F)
  | .whens, w => ∃ w', w = .keyword .when_ :: w' ∧ ∀ F,
      Completes 2 .operand (.operators 1 :: .caseCondition :: F) w'
        (.operators 1 :: .caseResult :: F)
  | .default, w => ∀ {m X F}, m.isComplete → (∀ f ∈ X, Slack 2 f) →
      ∃ f, (f = .caseResult ∨ f = .caseDefault) ∧
        Completes 2 m (X ++ .operators 1 :: .caseResult :: F) w (.operators 1 :: f :: F)

/-- An expression between other tokens is read on top of a frame that admits everything. -/
theorem Readable.inner {w : List Token} (h : Readable (.expr 1) w) (F : List Frame) :
    Completes 2 .operand (.operators 1 :: F) w (.operators 1 :: F) :=
  h (X := []) (by decide) (by decide) (.inl (by decide)) (.inl rfl) (by simp)

/-! ### Operators -/

theorem Completes.operator {b l : Nat} {m : Mode} {G F : List Frame} {u : List Token}
    (h : Completes b m G u (.operators l :: F)) {t : Token} {o : Operator}
    (ho : ∀ next, Operates next t o) (hl : l ≤ o.level) :
    ∃ Y, (∀ f ∈ Y, Slack b f) ∧ ∀ {w m' G'},
      Runs (o.enter (Y ++ .operators l :: F)).1 (o.enter (Y ++ .operators l :: F)).2 w m' G' →
      Runs m G (u ++ t :: w) m' G' := by
  obtain ⟨m₁, X, hm₁, hX, hu⟩ := h
  obtain ⟨Y, hY, hmove⟩ := exists_move_operator hl F hX
  exact ⟨Y, hY, fun hw => hu.append (.cons (fun next => hmove hm₁ (ho next)) hw)⟩

/-- An operator that NOT may stand before. -/
theorem Completes.maybeNot {b l : Nat} {m : Mode} {G F : List Frame} {u n : List Token}
    (h : Completes b m G u (.operators l :: F)) (hn : MaybeNot n) {t : Token} {o : Operator}
    (ho : ∀ next, Operates next t o) (hl : l ≤ 4) (ho4 : o.level = 4)
    (ht : negatable (some t))
    (hneg : ∀ F next, Move F next .negated t false (o.enter F).1 (o.enter F).2) :
    ∃ Y, (∀ f ∈ Y, Slack b f) ∧ ∀ {w m' G'},
      Runs (o.enter (Y ++ .operators l :: F)).1 (o.enter (Y ++ .operators l :: F)).2 w m' G' →
      Runs m G (u ++ (n ++ t :: w)) m' G' := by
  rcases hn with rfl | rfl
  · exact h.operator ho (by rwa [ho4])
  · obtain ⟨m₁, X, hm₁, hX, hu⟩ := h
    obtain ⟨Y, hY, hmove⟩ := exists_move_operator (o := .negation) hl F hX
    refine ⟨Y, hY, fun hw => hu.append ?_⟩
    exact .cons₂ (hmove hm₁ (.negation ht)) (.cons (hneg _) hw)

theorem binaryLevel_ne_three {t : Token} {q : Nat} (h : binaryLevel t = some q) : q ≠ 3 := by
  rintro rfl
  cases t with
  | keyword k => cases k <;> exact absurd h (by decide)
  | symbol s => cases s <;> exact absurd h (by decide)
  | _ => cases h

theorem readable_not {p : Nat} {w : List Token} (hw : Readable (.expr 3) w) :
    Readable (.expr p) (.keyword .not_ :: w) := by
  intro b l m X F hb _ _ hm hX
  rcases hm with rfl | ⟨rfl, hl⟩
  · obtain ⟨m', Y, hm', hY, hr⟩ := hw (l := 3) (X := []) (F := X ++ .operators l :: F) hb
      (by omega) (.inl (by omega)) (.inl rfl) (by simp)
    refine ⟨m', Y ++ .operators 3 :: X, hm', ?_, ?_⟩
    · intro f hf
      rcases List.mem_append.mp hf with hf | hf
      · exact hY f hf
      · rcases List.mem_cons.mp hf with rfl | hf
        · exact hb
        · exact hX f hf
    · rw [List.append_assoc, List.cons_append]
      exact .cons (fun _ => .operand (.not rfl)) hr
  · obtain ⟨m', Y, hm', hY, hr⟩ := hw (F := F) hb (by omega) (.inr ⟨rfl, hl⟩) (.inl rfl) hX
    exact ⟨m', Y, hm', hY, .cons (fun _ => .isNot) hr⟩

theorem readable_unary {p : Nat} {w : List Token} (hw : Readable .unary w) :
    Readable (.expr p) w := by
  intro b l m X F _ _ _ hm hX
  obtain ⟨m', hm', hr⟩ := hw (F := X ++ .operators l :: F) (m := m)
    (hm.imp_right fun h => .inr h.1)
  exact ⟨m', X, by rcases hm' with rfl | rfl <;> rfl, hX, hr⟩

theorem readable_binary {p q : Nat} {u v : List Token} {t : Token} (hu : Readable (.expr p) u)
    (ht : binaryLevel t = some q) (hpq : p ≤ q) (hv : Readable (.expr (q + 1)) v) :
    Readable (.expr p) (u ++ t :: v) := by
  intro b l m X F hb hbp hlp hm hX
  have hq := binaryLevel_ne_three ht
  have hlq : l ≤ q := by omega
  obtain ⟨Y, hY, hrun⟩ := (hu (F := F) hb hbp hlp hm hX).operator (t := t)
    (fun _ => .binary ht) (o := .binary q) hlq
  obtain ⟨m', Z, hm', hZ, hr⟩ := hv (b := b) (l := l) (m := .operand)
    (X := .operators (q + 1) :: Y) (F := F) hb (by omega) (.inl (by omega)) (.inl rfl)
    (List.forall_mem_cons.mpr ⟨by show b ≤ q + 1; omega, hY⟩)
  exact ⟨m', Z, hm', hZ, hrun hr⟩

/-- The second operand of an operator of level 4, read under the frames that the operator left
open. -/
theorem Readable.comparison {v : List Token} (hv : Readable (.expr 5) v) {b l : Nat} {m : Mode}
    {Y F : List Frame} (hb : b ≤ 3) (hl : l ≤ 4) (hm : m = .operand ∨ m = .isOperand)
    (hY : ∀ f ∈ Y, Slack b f) :
    Completes b m (.operators 5 :: (Y ++ .operators l :: F)) v (.operators l :: F) :=
  hv (X := .operators 5 :: Y) hb (by omega) (.inl (by omega)) (hm.imp_right fun h => ⟨h, hl⟩)
    (List.forall_mem_cons.mpr ⟨by show b ≤ 5; omega, hY⟩)

theorem readable_is {p : Nat} {u n v : List Token} (hp : p ≤ 4) (hu : Readable (.expr p) u)
    (hn : MaybeNot n) (hv : Readable (.expr 5) v) :
    Readable (.expr p) (u ++ .keyword .is_ :: (n ++ v)) := by
  intro b l m X F hb hbp hlp hm hX
  have hl : l ≤ 4 := by omega
  obtain ⟨Y, hY, hrun⟩ := (hu (F := F) hb hbp hlp hm hX).operator (fun _ => .is_) hl
  rcases hn with rfl | rfl
  · obtain ⟨m', Z, hm', hZ, hr⟩ := hv.comparison (F := F) hb hl (.inr rfl) hY
    exact ⟨m', Z, hm', hZ, hrun hr⟩
  · obtain ⟨m', Z, hm', hZ, hr⟩ := hv.comparison (F := F) hb hl (.inl rfl) hY
    exact ⟨m', Z, hm', hZ, hrun (.cons (fun _ => .isNot) hr)⟩

theorem readable_inEmpty {p : Nat} {u n : List Token} (hp : p ≤ 4) (hu : Readable (.expr p) u)
    (hn : MaybeNot n) : Readable (.expr p)
      (u ++ (n ++ [.keyword .in_, .symbol .openParen, .symbol .closeParen])) := by
  intro b l m X F hb hbp hlp hm hX
  obtain ⟨Y, hY, hrun⟩ := (hu (F := F) hb hbp hlp hm hX).maybeNot hn (fun _ => .in_) (by omega) rfl
    rfl fun _ _ => .notIn
  exact ⟨.end_, Y, rfl, hY, hrun (.cons (fun _ => .inList) (.cons (fun _ => .noItem) .nil))⟩

theorem readable_inList {p : Nat} {u n v : List Token} (hp : p ≤ 4) (hu : Readable (.expr p) u)
    (hn : MaybeNot n) (hv : Readable .list v) : Readable (.expr p)
      (u ++ (n ++ .keyword .in_ :: .symbol .openParen :: (v ++ [.symbol .closeParen]))) := by
  intro b l m X F hb hbp hlp hm hX
  obtain ⟨Y, hY, hrun⟩ := (hu (F := F) hb hbp hlp hm hX).maybeNot hn (fun _ => .in_) (by omega) rfl
    rfl fun _ _ => .notIn
  obtain ⟨m', Z, hm', hZ, hr⟩ := hv (f := .list) (F := Y ++ .operators l :: F) fun _ => .nextItem
  refine ⟨.end_, Y, rfl, hY, hrun (.cons (fun _ => .inList) (.append (hr.of_operand hm' .item) ?_))⟩
  exact .cons (fun _ => move_closer rfl hm' hZ .closeList) .nil

theorem readable_between {p : Nat} {u n v w : List Token} (hp : p ≤ 4)
    (hu : Readable (.expr p) u) (hn : MaybeNot n) (hv : Readable (.expr 5) v)
    (hw : Readable (.expr 5) w) : Readable (.expr p)
      (u ++ (n ++ .keyword .between :: (v ++ .keyword .and_ :: w))) := by
  intro b l m X F hb hbp hlp hm hX
  have hl : l ≤ 4 := by omega
  obtain ⟨Y, hY, hrun⟩ := (hu (F := F) hb hbp hlp hm hX).maybeNot hn (fun _ => .between) hl rfl
    rfl fun _ _ => .notBetween
  obtain ⟨m₁, Z₁, hm₁, hZ₁, hr₁⟩ := hv (b := 3) (l := 5) (X := [])
    (F := .lowerBound :: (Y ++ .operators l :: F)) (by decide) (by decide) (.inl (by decide))
    (.inl rfl) (by simp)
  have hZ₅ : ∀ f ∈ Z₁ ++ [.operators 5], Slack 3 f :=
    List.forall_mem_append.mpr ⟨hZ₁, by simp [Slack]⟩
  have hand : ∀ next, Move (Z₁ ++ .operators 5 :: .lowerBound :: (Y ++ .operators l :: F)) next m₁
      (.keyword .and_) false .operand (.operators 5 :: (Y ++ .operators l :: F)) := by
    intro next
    rw [List.append_cons]
    exact move_and hm₁ hZ₅
  obtain ⟨m', Z, hm', hZ, hr⟩ := hw.comparison (F := F) hb hl (.inl rfl) hY
  exact ⟨m', Z, hm', hZ, hrun (hr₁.append (.cons hand hr))⟩

theorem isLikeWord_negatable {t : Token} (ht : isLikeWord t) : negatable (some t) := by
  cases t with
  | keyword k => cases k <;> first | rfl | exact absurd ht (by decide)
  | _ => cases ht

theorem readable_like {p : Nat} {u n v : List Token} {t : Token} (hp : p ≤ 4)
    (hu : Readable (.expr p) u) (hn : MaybeNot n) (ht : isLikeWord t)
    (hv : Readable (.expr 5) v) : Readable (.expr p) (u ++ (n ++ t :: v)) := by
  intro b l m X F hb hbp hlp hm hX
  have hl : l ≤ 4 := by omega
  obtain ⟨Y, hY, hrun⟩ := (hu (F := F) hb hbp hlp hm hX).maybeNot hn (fun _ => .like ht) hl rfl
    (isLikeWord_negatable ht) fun _ _ => .notLike ht
  obtain ⟨m', Z, hm', hZ, hr⟩ := hv.comparison (b := b) (Y := .pattern :: Y) (F := F) hb hl
    (.inl rfl) (List.forall_mem_cons.mpr ⟨trivial, hY⟩)
  exact ⟨m', Z, hm', hZ, hrun hr⟩

theorem readable_likeEscape {p : Nat} {u n v w : List Token} {t : Token} (hp : p ≤ 4)
    (hu : Readable (.expr p) u) (hn : MaybeNot n) (ht : isLikeWord t)
    (hv : Readable (.expr 5) v) (hw : Readable (.expr 5) w) :
    Readable (.expr p) (u ++ (n ++ t :: (v ++ .keyword .escape :: w))) := by
  intro b l m X F hb hbp hlp hm hX
  have hl : l ≤ 4 := by omega
  obtain ⟨Y, hY, hrun⟩ := (hu (F := F) hb hbp hlp hm hX).maybeNot hn (fun _ => .like ht) hl rfl
    (isLikeWord_negatable ht) fun _ _ => .notLike ht
  -- the pattern is part of the base, so that one is open when ESCAPE comes
  obtain ⟨m₁, Z₁, hm₁, hZ₁, hr₁⟩ := hv (b := b) (l := 5) (X := [])
    (F := .pattern :: (Y ++ .operators l :: F)) hb (by omega) (.inl (by decide)) (.inl rfl)
    (by simp)
  have hZ₅ : ∀ f ∈ Z₁ ++ [.operators 5], Slack b f := by
    intro f hf
    rcases List.mem_append.mp hf with hf | hf
    · exact hZ₁ f hf
    · rw [List.mem_singleton.mp hf]
      show b ≤ 5
      omega
  obtain ⟨Z₂, hZ₂, hmove⟩ := exists_move_escape (Y ++ .operators l :: F) hZ₅
  simp only [List.append_assoc, List.cons_append, List.nil_append] at hmove
  have hY₂ : ∀ f ∈ Z₂ ++ Y, Slack b f := fun f hf =>
    (List.mem_append.mp hf).elim (hZ₂ f) (hY f)
  obtain ⟨m', Z, hm', hZ, hr⟩ := hw.comparison (F := F) hb hl (.inl rfl) hY₂
  rw [List.append_assoc] at hr
  exact ⟨m', Z, hm', hZ, hrun (hr₁.append (.cons (fun _ => hmove hm₁) hr))⟩

/-- ISNULL and NOTNULL. -/
theorem readable_nullTest {p : Nat} {u : List Token} {t : Token} (hp : p ≤ 4)
    (hu : Readable (.expr p) u) (ht : ∀ next, Operates next t .nullTest) :
    Readable (.expr p) (u ++ [t]) := by
  intro b l m X F hb hbp hlp hm hX
  obtain ⟨Y, hY, hrun⟩ := (hu (F := F) hb hbp hlp hm hX).operator ht (show l ≤ 4 by omega)
  exact ⟨.end_, Y, rfl, hY, hrun .nil⟩

theorem readable_notNullApart {p : Nat} {u : List Token} (hp : p ≤ 4)
    (hu : Readable (.expr p) u) : Readable (.expr p) (u ++ [.keyword .not_, .keyword .null]) := by
  intro b l m X F hb hbp hlp hm hX
  obtain ⟨m₁, X₁, hm₁, hX₁, hr⟩ := hu (F := F) hb hbp hlp hm hX
  obtain ⟨Y, hY, hmove⟩ := exists_move_operator (o := .negation) (show l ≤ 4 by omega) F hX₁
  refine ⟨.end_, Y, rfl, hY, hr.append ?_⟩
  exact .cons₂ (hmove hm₁ (.negation rfl)) (.cons (fun _ => .notNull) .nil)

/-! ### Operands -/

/-- An operand that any operand mode starts with the same token. -/
theorem Starts.move {F F' : List Frame} {next : Option Token} {m m' : Mode} {t : Token} {u : Bool}
    (h : ∀ b, Starts F next b t u m' F') (ht : t ≠ .keyword .not_)
    (hm : m = .operand ∨ m = .signed ∨ m = .isOperand) : Move F next m t u m' F' := by
  rcases hm with rfl | rfl | rfl
  · exact .operand (h true)
  · exact .signed (h false)
  · exact .isOperand ht (h true)

theorem Settles.append {m : Mode} {F : List Frame} {w c : List Token} (hw : Settles m F w)
    (hc : Readable .collations c) : Settles m F (w ++ c) := by
  obtain ⟨m₁, hm₁, hr₁⟩ := hw
  obtain ⟨m', hm', hr⟩ := hc hm₁
  exact ⟨m', hm', hr₁.append hr⟩

theorem readable_sign {t : Token} {w c : List Token} (ht : isSign t) (hw : Readable .unary w)
    (hc : Readable .collations c) : Readable .unary (t :: (w ++ c)) := by
  intro m F hm
  have hne : t ≠ .keyword .not_ := by rintro rfl; cases ht
  obtain ⟨m', hm', hr⟩ := (hw (F := F) (.inr (.inl rfl))).append hc
  exact ⟨m', hm', .cons (fun _ => Starts.move (fun _ => .sign ht) hne hm) hr⟩

theorem readable_noCollation : Readable .collations [] :=
  fun hm => ⟨_, hm, .nil⟩

theorem readable_collation {n : Token} {c : List Token} (hn : isNaming n)
    (hc : Readable .collations c) : Readable .collations (.keyword .collate :: n :: c) := by
  intro m F hm
  obtain ⟨m', hm', hr⟩ := hc (F := F) (.inr rfl)
  have hcollate : ∀ next, Move F next m (.keyword .collate) false .collation F := by
    intro next
    rcases hm with rfl | rfl
    · exact .collateName
    · exact .collate
  exact ⟨m', hm', .cons hcollate (.cons (fun _ => .collation hn) hr)⟩

theorem readable_literal {t : Token} (ht : isLiteral t) : Readable .primary [t] := by
  intro m F hm
  have hne : t ≠ .keyword .not_ := by rintro rfl; cases ht
  exact ⟨.operandEnd, .inr rfl,
    .cons (fun _ => Starts.move (fun _ => .literal ht) hne hm) .nil⟩

theorem move_name {F : List Frame} {next : Option Token} {m : Mode}
    (hm : m = .operand ∨ m = .signed ∨ m = .isOperand) : Move F next m .ident false .name F :=
  Starts.move (fun _ => .name) (by simp) hm

theorem readable_name : Readable .primary [.ident] :=
  fun hm => ⟨.name, .inl rfl, .cons (fun _ => move_name hm) .nil⟩

theorem readable_member : Readable .primary [.ident, .symbol .dot, .ident] :=
  fun hm => ⟨.operandEnd, .inr rfl,
    .cons (fun _ => move_name hm) (.cons (fun _ => .dot) (.cons (fun _ => .member) .nil))⟩

/-- The name of a function and the parenthesis after it lead to its arguments. -/
theorem Runs.function {f : Token} (hf : isFunction f) {m m' : Mode} {F F' : List Frame}
    {w : List Token} (hm : m = .operand ∨ m = .signed ∨ m = .isOperand)
    (hw : Runs .argumentList F w m' F') : Runs m F (f :: .symbol .openParen :: w) m' F' := by
  rcases (Bool.or_eq_true _ _).mp hf with hf | hf
  · obtain rfl := beq_iff_eq.mp hf
    exact .cons (fun _ => move_name hm) (.cons (fun _ => .nameCall) hw)
  · have hne : f ≠ .keyword .not_ := by rintro rfl; cases hf
    exact .cons₂ (Starts.move (fun _ => .function hf rfl) hne hm) (.cons (fun _ => .call) hw)

theorem readable_callStar {f : Token} (hf : isFunction f) :
    Readable .primary [f, .symbol .openParen, .symbol .star, .symbol .closeParen] :=
  fun hm => ⟨.operandEnd, .inr rfl,
    .function hf hm (.cons (fun _ => .star) (.cons (fun _ => .callEnd) .nil))⟩

theorem readable_callEmpty {f : Token} (hf : isFunction f) :
    Readable .primary [f, .symbol .openParen, .symbol .closeParen] :=
  fun hm => ⟨.operandEnd, .inr rfl, .function hf hm (.cons (fun _ => .noArgument) .nil)⟩

theorem readable_call {f : Token} {d v : List Token} (hf : isFunction f) (hd : MaybeDistinct d)
    (hv : Readable .list v) :
    Readable .primary (f :: .symbol .openParen :: (d ++ (v ++ [.symbol .closeParen]))) := by
  intro m F hm
  obtain ⟨m', Z, hm', hZ, hr⟩ := hv (f := .arguments) (F := F) fun _ => .nextArgument
  have hend : Runs m' (Z ++ .operators 1 :: .arguments :: F) [.symbol .closeParen] .operandEnd F :=
    .cons (fun _ => move_closer rfl hm' hZ .closeCall) .nil
  refine ⟨.operandEnd, .inr rfl, .function hf hm ?_⟩
  rcases hd with rfl | rfl
  · exact (hr.of_operand hm' .argument).append hend
  · exact .cons (fun _ => .distinct) (hr.append hend)

theorem readable_group {v : List Token} (hv : Readable .list v) :
    Readable .primary (.symbol .openParen :: (v ++ [.symbol .closeParen])) := by
  intro m F hm
  obtain ⟨m', Z, hm', hZ, hr⟩ := hv (f := .group) (F := F) fun _ => .nextMember
  refine ⟨.operandEnd, .inr rfl,
    .cons (fun _ => Starts.move (fun _ => .group) (by simp) hm) (hr.append ?_)⟩
  exact .cons (fun _ => move_closer rfl hm' hZ .closeGroup) .nil

theorem readable_single {v : List Token} (hv : Readable (.expr 1) v) : Readable .list v :=
  fun _ => hv.inner _

theorem readable_comma {v w : List Token} (hv : Readable (.expr 1) v) (hw : Readable .list w) :
    Readable .list (v ++ .symbol .comma :: w) := by
  intro f F hf
  obtain ⟨m₁, Z₁, hm₁, hZ₁, hr₁⟩ := hv.inner (f :: F)
  obtain ⟨m', Z, hm', hZ, hr⟩ := hw hf
  exact ⟨m', Z, hm', hZ, hr₁.append (.cons (fun next => move_closer rfl hm₁ hZ₁ (hf next)) hr)⟩

/-! ### CASE -/

/-- The condition and the result of one WHEN. -/
theorem completes_when {v w : List Token} (hv : Readable (.expr 1) v)
    (hw : Readable (.expr 1) w) (F : List Frame) :
    Completes 2 .operand (.operators 1 :: .caseCondition :: F) (v ++ .keyword .then_ :: w)
      (.operators 1 :: .caseResult :: F) := by
  obtain ⟨m₁, Z₁, hm₁, hZ₁, hr₁⟩ := hv.inner (.caseCondition :: F)
  obtain ⟨m', Z, hm', hZ, hr⟩ := hw.inner (.caseResult :: F)
  exact ⟨m', Z, hm', hZ, hr₁.append (.cons (fun _ => move_closer rfl hm₁ hZ₁ .then_) hr)⟩

theorem readable_when {v w : List Token} (hv : Readable (.expr 1) v)
    (hw : Readable (.expr 1) w) :
    Readable .whens (.keyword .when_ :: (v ++ .keyword .then_ :: w)) :=
  ⟨_, rfl, completes_when hv hw⟩

theorem readable_whens {v w ws : List Token} (hv : Readable (.expr 1) v)
    (hw : Readable (.expr 1) w) (hws : Readable .whens ws) :
    Readable .whens (.keyword .when_ :: (v ++ .keyword .then_ :: (w ++ ws))) := by
  obtain ⟨ws, rfl, hws⟩ := hws
  refine ⟨_, rfl, fun F => ?_⟩
  obtain ⟨m₁, Z₁, hm₁, hZ₁, hr₁⟩ := completes_when hv hw F
  obtain ⟨m', Z, hm', hZ, hr⟩ := hws F
  have := hr₁.append (.cons (fun _ => move_closer rfl hm₁ hZ₁ .nextWhen) hr)
  exact ⟨m', Z, hm', hZ, by simpa using this⟩

theorem readable_noDefault : Readable .default [] :=
  fun hm hX => ⟨.caseResult, .inl rfl, _, _, hm, hX, .nil⟩

theorem readable_default {v : List Token} (hv : Readable (.expr 1) v) :
    Readable .default (.keyword .else_ :: v) := by
  intro m X F hm hX
  obtain ⟨m', Z, hm', hZ, hr⟩ := hv.inner (.caseDefault :: F)
  exact ⟨.caseDefault, .inr rfl, m', Z, hm', hZ,
    .cons (fun _ => move_closer rfl hm hX .else_) hr⟩

/-- The default and END after the alternatives. -/
theorem Completes.endCase {m : Mode} {G F : List Frame} {w d : List Token}
    (h : Completes 2 m G w (.operators 1 :: .caseResult :: F)) (hd : Readable .default d) :
    Runs m G (w ++ (d ++ [.keyword .end_])) .operandEnd F := by
  obtain ⟨m₁, Z₁, hm₁, hZ₁, hr₁⟩ := h
  obtain ⟨f, hf, m', Z, hm', hZ, hr⟩ := hd (F := F) hm₁ hZ₁
  have hend : ∀ next, Takes next (f :: F) (.keyword .end_) .operandEnd F := by
    intro next
    rcases hf with rfl | rfl
    · exact .endResult
    · exact .endDefault
  exact hr₁.append (hr.append (.cons (fun next => move_closer rfl hm' hZ (hend next)) .nil))

theorem readable_case {ws d : List Token} (hws : Readable .whens ws)
    (hd : Readable .default d) :
    Readable .primary (.keyword .case_ :: (ws ++ (d ++ [.keyword .end_]))) := by
  intro m F hm
  obtain ⟨ws, rfl, hws⟩ := hws
  exact ⟨.operandEnd, .inr rfl, .cons (fun _ => Starts.move (fun _ => .case_) (by simp) hm)
    (.cons (fun _ => .when_) ((hws F).endCase hd))⟩

theorem readable_caseOf {v ws d : List Token} (hv : Readable (.expr 1) v)
    (hws : Readable .whens ws) (hd : Readable .default d) :
    Readable .primary (.keyword .case_ :: (v ++ (ws ++ (d ++ [.keyword .end_])))) := by
  intro m F hm
  obtain ⟨ws, rfl, hws⟩ := hws
  obtain ⟨m₁, Z₁, hm₁, hZ₁, hr₁⟩ := hv.inner (.caseSubject :: F)
  refine ⟨.operandEnd, .inr rfl, .cons (fun _ => Starts.move (fun _ => .case_) (by simp) hm) ?_⟩
  exact (hr₁.of_operand hm₁ .subject).append
    (.cons (fun _ => move_closer rfl hm₁ hZ₁ .firstWhen) ((hws F).endCase hd))

/-! ## Completeness -/

/-- **What derives from the grammar can be read.** -/
theorem readable_of_derives {A : Nonterminal} {w : List Token} (h : Derives A w) :
    Readable A w := by
  induction h with
  | not _ hw => exact readable_not hw
  | unary _ hw => exact readable_unary hw
  | binary _ ht hpq _ hu hv => exact readable_binary hu ht hpq hv
  | is_ hp _ hn _ hu hv => exact readable_is hp hu hn hv
  | inEmpty hp _ hn hu => exact readable_inEmpty hp hu hn
  | inList hp _ hn _ hu hv => exact readable_inList hp hu hn hv
  | between hp _ hn _ _ hu hv hw => exact readable_between hp hu hn hv hw
  | like hp _ hn hk _ hu hv => exact readable_like hp hu hn hk hv
  | likeEscape hp _ hn hk _ _ hu hv hw => exact readable_likeEscape hp hu hn hk hv hw
  | isNull hp _ hu => exact readable_nullTest hp hu fun _ => .isNull
  | notNull hp _ hu => exact readable_nullTest hp hu fun _ => .notNull
  | notNullApart hp _ hu => exact readable_notNullApart hp hu
  | sign ht _ _ hw hc => exact readable_sign ht hw hc
  | primary _ _ hw hc => exact fun hm => (hw hm).append hc
  | noCollation => exact readable_noCollation
  | collation hn _ hc => exact readable_collation hn hc
  | literal ht => exact readable_literal ht
  | name => exact readable_name
  | member => exact readable_member
  | callStar hf => exact readable_callStar hf
  | callEmpty hf => exact readable_callEmpty hf
  | call hf hd _ hv => exact readable_call hf hd hv
  | group _ hv => exact readable_group hv
  | case_ _ _ hws hd => exact readable_case hws hd
  | caseOf _ _ _ hv hws hd => exact readable_caseOf hv hws hd
  | single _ hv => exact readable_single hv
  | comma _ _ hv hw => exact readable_comma hv hw
  | when_ _ _ hv hw => exact readable_when hv hw
  | whens _ _ _ hv hw hws => exact readable_whens hv hw hws
  | noDefault => exact readable_noDefault
  | default _ hv => exact readable_default hv

theorem Fragment.lead_congr {next : Option Token} {f g : Fragment}
    (h : f.map Word.token = g.map Word.token) : Fragment.lead next f = Fragment.lead next g := by
  cases f with
  | nil => obtain rfl := List.map_eq_nil_iff.mp h.symm; rfl
  | cons w f =>
    cases g with
    | nil => cases h
    | cons v g => exact congrArg some (List.cons.inj h).1

/-- A run does not look at the texts of the words. -/
theorem Reads.respell {next : Option Token} {m m' : Mode} {F F' : List Frame} {f : Fragment}
    (h : Reads next m F f m' F') :
    ∀ {es : List Lexeme}, f.map Word.token = es.map Lexeme.token →
      ∃ g : Fragment, g.Spells es ∧ Reads next m F g m' F' := by
  induction h with
  | done =>
    intro es hes
    obtain rfl := List.map_eq_nil_iff.mp hes.symm
    exact ⟨[], rfl, .done⟩
  | @word m F w ws m' F' m'' F'' hmove _ ih =>
    intro es hes
    cases es with
    | nil => cases hes
    | cons l es =>
      obtain ⟨ht, hes⟩ := List.cons.inj hes
      obtain ⟨g, hg, hreads⟩ := ih hes
      refine ⟨⟨l.token, l.text, w.unary⟩ :: g, congrArg (l.spelling :: ·) hg, .word ?_ hreads⟩
      rwa [Fragment.lead_congr (hg.tokens.trans hes.symm), ← ht]

/-- **Lexemes whose tokens derive from the grammar are an expression.** -/
theorem exists_isExpression {es : List Lexeme} (h : Expr (es.map Lexeme.token)) :
    ∃ f : Fragment, f.IsExpression ∧ f.Spells es := by
  obtain ⟨m, X, hm, hX, hr⟩ := Readable.inner (readable_of_derives h) []
  obtain ⟨f, hf, hreads⟩ := hr none
  obtain ⟨g, hg, hreads⟩ := hreads.respell hf
  refine ⟨g, ⟨m, _, hreads, hm, ?_⟩, hg⟩
  intro f hf
  rcases List.mem_append.mp hf with hf | hf
  · exact (hX f hf).isLoose
  · rw [List.mem_singleton.mp hf]
    rfl

end TreeQuery.Query
