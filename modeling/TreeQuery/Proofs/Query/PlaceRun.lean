import TreeQuery.Proofs.Query.Layout

/-!
# Runs over a whole statement

`Leads` is a run of the automaton of `Place` over tokens. Every step is determined by its token and
the token after that, and the token after matters in two cases only: a NOT that negates an
operator, and a function name that is a word of LIKE's family. The place that such a step leads to
remembers what it has seen (`Place.Admits`), so a run may be continued in another way as long as
its last place admits the new token.

Results:
* `Place.step_congr_next`: a step depends on the token after it as far as the place after it says,
  and `Place.step_next`: over any but these words it does not depend on it at all.
* `readFrom_ok_iff`: lexemes are read iff a run over their tokens leads to a place that may be last.
* `stops_of_readFrom`: where a reading fails, a run leads to the place of the failure.
-/

namespace TreeQuery.Query

open Grammar (isLikeWord)

/-! ## What a step sees of the next token -/

/-- What may follow the step that led to a place. -/
def Place.Admits (next : Option Token) : Place → Prop
  | .expr _ m _ => m.Admits next
  | _ => True

/-- The words with which a step may look at the token after its own. -/
def Token.looksAhead (t : Token) : Bool :=
  t == .keyword .not_ || isLikeWord t

theorem columnStep_congr_next {t : Token} {next next' : Option Token} {s : Step}
    (h : columnStep t next = .ok s) (hs : s.place.Admits next') :
    columnStep t next' = .ok s := by
  unfold columnStep at h ⊢
  split
  · rename_i ht
    rwa [if_pos ht] at h
  · rename_i ht
    rw [if_neg ht] at h
    obtain ⟨u, m, F', hstart, rfl⟩ := operandStep_iff.mp h
    exact operandStep_iff.mpr ⟨u, m, F', hstart.congr_next hs, rfl⟩

theorem exprStep_congr_next {c : Clause} {m : Mode} {F : List Frame} {t : Token}
    {next next' : Option Token} {s : Step} (h : exprStep c m F t next = .ok s)
    (hs : s.place.Admits next') : exprStep c m F t next' = .ok s := by
  rcases exprStep_cases h with ⟨u, m', F', hmove, rfl⟩ | ⟨hm, hF, hend⟩
  · exact (hmove.congr_next hs).exprStep_eq c
  · have ht := endsExpression_of_endStep hend
    have hnot : t ≠ .keyword .not_ := by
      rintro rfl
      exact absurd ht (by decide)
    have hF' : ∀ f ∈ F, Passes next' t f := fun f hf =>
      (hF f hf).congr_next fun h => absurd h hnot
    rw [exprStep_complete hm (ne_of_endsExpression ht), afterOperand,
      resume_outside_iff.mpr hF']
    exact hend

/-- **A step depends on the token after it** as far as the place after the step says. -/
theorem Place.step_congr_next {p : Place} {t : Token} {next next' : Option Token} {s : Step}
    (h : p.step t next = .ok s) (hs : s.place.Admits next') : p.step t next' = .ok s := by
  cases p with
  | expr c m F => exact exprStep_congr_next h hs
  | column => exact columnStep_congr_next h hs
  | quantifier =>
    rw [Place.step] at h ⊢
    split
    · rename_i ht
      rwa [if_pos ht] at h
    · split
      · rename_i hdistinct hall
        rwa [if_neg hdistinct, if_pos hall] at h
      · rename_i hdistinct hall
        rw [if_neg hdistinct, if_neg hall] at h
        exact columnStep_congr_next h hs
  | _ => exact h

theorem Token.not_looksAhead {t : Token} (ht : ¬ t.looksAhead) :
    t ≠ .keyword .not_ ∧ ¬ isLikeWord t := by
  simpa [Token.looksAhead] using ht

theorem operandStep_next {t : Token} (ht : ¬ isLikeWord t) (c : Clause) (F : List Frame)
    (b : Bool) (next next' : Option Token) :
    operandStep c F b t next = operandStep c F b t next' := by
  cases t with
  | keyword k => cases k <;> first | rfl | exact absurd rfl ht
  | symbol s => cases s <;> rfl
  | _ => rfl

theorem ofToken?_next {t : Token} (ht : t ≠ .keyword .not_) (next next' : Option Token) :
    Operator.ofToken? next t = Operator.ofToken? next' t := by
  cases t with
  | keyword k => cases k <;> first | rfl | exact absurd rfl ht
  | _ => rfl

theorem resume_next {t : Token} (ht : t ≠ .keyword .not_) (next next' : Option Token)
    (F : List Frame) : resume (some t) next F = resume (some t) next' F := by
  induction F with
  | nil => rfl
  | cons f F ih => cases f <;> simp only [resume, Option.bind_some, ofToken?_next ht next next', ih]

theorem exprStep_next {t : Token} (ht : ¬ t.looksAhead) (c : Clause) (m : Mode) (F : List Frame)
    (next next' : Option Token) : exprStep c m F t next = exprStep c m F t next' := by
  obtain ⟨hnot, hlike⟩ := t.not_looksAhead ht
  cases m <;> simp only [exprStep, afterOperand, operandStep_next hlike c _ _ next next',
    resume_next hnot next next']

/-- **Over every other word a step does not depend on the token after it.** -/
theorem Place.step_next {t : Token} (ht : ¬ t.looksAhead) (p : Place)
    (next next' : Option Token) : p.step t next = p.step t next' := by
  have hcolumn : columnStep t next = columnStep t next' := by
    rw [columnStep, columnStep, operandStep_next (t.not_looksAhead ht).2 _ _ _ next next']
  cases p with
  | expr c m F => exact exprStep_next ht c m F next next'
  | column => exact hcolumn
  | quantifier => simp only [Place.step, hcolumn]
  | _ => rfl

/-! ## Runs -/

/-- **A run of the automaton** over tokens that `next` follows. -/
inductive Leads (next : Option Token) : Place → List Token → Place → Prop where
  | done {p} : Leads next p [] p
  | step {p t w s q} : p.step t (w.head?.or next) = .ok s → Leads next s.place w q →
      Leads next p (t :: w) q

namespace Leads

variable {next next' : Option Token} {p q r : Place} {w v : List Token}

theorem unique (h : Leads next p w q) : ∀ {q'}, Leads next p w q' → q = q' := by
  induction h with
  | done =>
    intro q' h'
    cases h'
    rfl
  | step hs _ ih =>
    intro q' h'
    cases h' with
    | step hs' h' =>
      obtain rfl := Except.ok.inj (hs.symm.trans hs')
      exact ih h'

theorem append (h : Leads (v.head?.or next) p w q) (hv : Leads next q v r) :
    Leads next p (w ++ v) r := by
  induction h with
  | done => exact hv
  | step hs _ ih =>
    refine .step ?_ (ih hv)
    rw [← Option.or_assoc, ← List.head?_append] at hs
    exact hs

theorem exists_split : ∀ {w : List Token} {p : Place}, Leads next p (w ++ v) r →
    ∃ q, Leads (v.head?.or next) p w q ∧ Leads next q v r
  | [], p, h => ⟨p, .done, h⟩
  | t :: w, p, h => by
    cases h with
    | step hs h =>
      obtain ⟨q, hw, hv⟩ := exists_split h
      refine ⟨q, .step ?_ hw, hv⟩
      rw [← Option.or_assoc, ← List.head?_append]
      exact hs

/-- A run may be followed by every token that its last place admits. -/
theorem congr_next (h : Leads next p w q) (hq : q.Admits next') : Leads next' p w q := by
  induction h with
  | done => exact .done
  | @step p t w s q hs hrest ih =>
    refine .step ?_ (ih hq)
    cases w with
    | nil =>
      cases hrest
      exact Place.step_congr_next hs hq
    | cons t' w => exact hs

end Leads

/-- Inside an expression a run of moves is a run of the automaton. -/
theorem Reads.leads {next : Option Token} {m m' : Mode} {F F' : List Frame} {f : Fragment}
    (h : Reads next m F f m' F') (c : Clause) :
    Leads next (.expr c m F) (f.map Word.token) (.expr c m' F') := by
  induction h with
  | done => exact .done
  | @word m F w ws m' F' m'' F'' hmove _ ih =>
    have hlead : Fragment.lead next ws = (ws.map Word.token).head?.or next := by
      cases ws <;> rfl
    rw [hlead] at hmove
    exact .step (hmove.exprStep_eq c) ih

/-! ## Runs and readings -/

/-- The tokens lead from a place to one that may be the last. -/
def Place.Accepts (p : Place) (w : List Token) : Prop :=
  ∃ q ended, Leads none p w q ∧ q.finish = .ok ended

/-- **Lexemes are read** iff a run over their tokens leads to a place that may be the last. -/
theorem readFrom_ok_iff {p : Place} {d : Draft} {ls : List Lexeme} :
    (∃ s, readFrom p d ls = .ok s) ↔ p.Accepts (ls.map Lexeme.token) := by
  induction ls generalizing p d with
  | nil =>
    constructor
    · rintro ⟨s, h⟩
      rw [readFrom] at h
      cases hfinish : p.finish with
      | ok ended => exact ⟨p, ended, .done, hfinish⟩
      | error x => rw [hfinish] at h; cases h
    · rintro ⟨q, ended, hlead, hfinish⟩
      cases hlead
      exact ⟨_, by rw [readFrom, hfinish]⟩
  | cons l ls ih =>
    have hnext : ls.head?.map Lexeme.token = (ls.map Lexeme.token).head?.or none := by
      rw [List.head?_map, Option.or_none]
    constructor
    · rintro ⟨s, h⟩
      rw [readFrom] at h
      cases hstep : p.step l.token (ls.head?.map Lexeme.token) with
      | ok st =>
        rw [hstep] at h
        obtain ⟨q, ended, hlead, hfinish⟩ := ih.mp ⟨s, h⟩
        exact ⟨q, ended, .step (hnext ▸ hstep) hlead, hfinish⟩
      | error x => rw [hstep] at h; cases h
    · rintro ⟨q, ended, hlead, hfinish⟩
      cases hlead with
      | step hs hrest =>
        obtain ⟨s, h⟩ := ih.mpr ⟨q, ended, hrest, hfinish⟩
        exact ⟨s, by rw [readFrom, hnext, hs]; exact h⟩

/-- **Where a reading fails**: at a lexeme that cannot follow, or at the end. -/
inductive Stops (p : Place) : List Lexeme → SyntaxError → Prop where
  | unexpected {us l vs q x} : Leads (some l.token) p (us.map Lexeme.token) q →
      q.step l.token (vs.head?.map Lexeme.token) = .error x →
      Stops p (us ++ l :: vs) (.unexpected x l.start)
  | incomplete {ls q x} : Leads none p (ls.map Lexeme.token) q → q.finish = .error x →
      Stops p ls (.incomplete x)

theorem stops_of_readFrom {p : Place} {d : Draft} {ls : List Lexeme} {e : SyntaxError}
    (h : readFrom p d ls = .error e) : Stops p ls e := by
  induction ls generalizing p d with
  | nil =>
    rw [readFrom] at h
    cases hfinish : p.finish with
    | ok ended => rw [hfinish] at h; cases h
    | error x =>
      rw [hfinish] at h
      obtain rfl := Except.error.inj h
      exact .incomplete .done hfinish
  | cons l ls ih =>
    rw [readFrom] at h
    cases hstep : p.step l.token (ls.head?.map Lexeme.token) with
    | error x =>
      rw [hstep] at h
      obtain rfl := Except.error.inj h
      have hdone : Leads (some l.token) p (([] : List Lexeme).map Lexeme.token) p := .done
      exact .unexpected hdone hstep
    | ok st =>
      rw [hstep] at h
      cases ih h with
      | @unexpected us l' vs q x hlead hq =>
        have hfirst : p.step l.token ((us.map Lexeme.token).head?.or (some l'.token)) = .ok st := by
          rw [← hstep]
          cases us <;> rfl
        rw [← List.cons_append]
        exact .unexpected (.step hfirst hlead) hq
      | incomplete hlead hq =>
        refine .incomplete (.step ?_ hlead) hq
        rw [List.head?_map, Option.or_none]
        exact hstep

end TreeQuery.Query
