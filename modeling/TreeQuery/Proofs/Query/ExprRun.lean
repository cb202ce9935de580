import TreeQuery.Proofs.Query.Moves
import TreeQuery.Query.Reading

/-!
# Runs inside one expression

`Reads` is a run of moves over the words of a fragment, and a fragment `IsExpression` when a run
over it leads from the start of an expression to a complete one. The token after the fragment is a
parameter of a run, as a move may look at the token that follows; a run to a complete operand does
not depend on it (`Reads.congr_next`).

Results:
* `readFrom_of_isExpression`: an expression is read as its words, in every clause and before every
  token that can follow an expression.
* `readFrom_expr`: a reading that succeeds from the start of an expression reads an expression
  first, and `afterExpr` is the rest of it.
-/

namespace TreeQuery.Query

/-- A word without the mark of an operator, and a lexeme without its place. -/
abbrev Spelling := Token × List Char

def Word.spelling (w : Word) : Spelling := (w.token, w.text)

def Lexeme.spelling (l : Lexeme) : Spelling := (l.token, l.text)

/-- The words of a fragment are these lexemes. -/
def Fragment.Spells (f : Fragment) (ls : List Lexeme) : Prop :=
  f.map Word.spelling = ls.map Lexeme.spelling

/-- The first token of a fragment, or else the token that follows it. -/
def Fragment.lead (next : Option Token) : Fragment → Option Token
  | [] => next
  | w :: _ => some w.token

theorem Fragment.lead_append (next : Option Token) (f g : Fragment) :
    Fragment.lead next (f ++ g) = Fragment.lead (Fragment.lead next g) f := by
  cases f <;> rfl

theorem Fragment.Spells.tokens {f : Fragment} {ls : List Lexeme} (h : f.Spells ls) :
    f.map Word.token = ls.map Lexeme.token := by
  have h' := congrArg (List.map Prod.fst) h
  simpa [Function.comp_def, Word.spelling, Lexeme.spelling] using h'

theorem Fragment.Spells.cons_inv {w : Word} {ws : Fragment} {ls : List Lexeme}
    (h : Fragment.Spells (w :: ws) ls) :
    ∃ l ls', ls = l :: ls' ∧ w.token = l.token ∧ w.text = l.text ∧ Fragment.Spells ws ls' := by
  cases ls with
  | nil => cases h
  | cons l ls' =>
    obtain ⟨hw, hs⟩ := List.cons.inj h
    obtain ⟨ht, hx⟩ := Prod.mk.inj hw
    exact ⟨l, ls', rfl, ht, hx, hs⟩

theorem Fragment.Spells.lead {f : Fragment} {ls : List Lexeme} (h : f.Spells ls)
    {rest : List Lexeme} :
    Fragment.lead (rest.head?.map Lexeme.token) f = (ls ++ rest).head?.map Lexeme.token := by
  cases f with
  | nil => obtain rfl := List.map_eq_nil_iff.mp h.symm; rfl
  | cons w ws =>
    obtain ⟨l, ls', rfl, ht, -, -⟩ := h.cons_inv
    exact congrArg some ht

/-! ## Runs -/

/-- **A run of moves** over the words of a fragment, which `next` follows. -/
inductive Reads (next : Option Token) :
    Mode → List Frame → Fragment → Mode → List Frame → Prop where
  | done {m F} : Reads next m F [] m F
  | word {m F w ws m' F' m'' F''} :
      Move F (Fragment.lead next ws) m w.token w.unary m' F' → Reads next m' F' ws m'' F'' →
      Reads next m F (w :: ws) m'' F''

theorem Reads.append {next : Option Token} {m m' m'' : Mode} {F F' F'' : List Frame}
    {f g : Fragment} (hf : Reads (Fragment.lead next g) m F f m' F')
    (hg : Reads next m' F' g m'' F'') : Reads next m F (f ++ g) m'' F'' := by
  induction hf with
  | done => exact hg
  | word hm _ ih =>
    rw [← Fragment.lead_append] at hm
    exact .word hm (ih hg)

/-- The frames that may still be open when an expression is complete. -/
def Frame.isLoose : Frame → Bool
  | operators _ | pattern => true
  | _ => false

/-- The words are one whole expression. -/
def Fragment.IsExpression (f : Fragment) : Prop :=
  ∃ m F, Reads none .operand [.operators 1] f m F ∧ m.isComplete ∧ ∀ g ∈ F, g.isLoose

/-! ### The token after a run -/

/-- What may follow the step that led to a mode. Two steps look at the token after theirs: the one
over a NOT that negates an operator, and the one over a function name that is a word of LIKE's
family. -/
def Mode.Admits (next : Option Token) : Mode → Prop
  | negated => negatable next
  | call => next = some (.symbol .openParen)
  | _ => True

theorem Mode.admits_of_isComplete {m : Mode} (hm : m.isComplete) (next : Option Token) :
    m.Admits next := by
  cases m with
  | negated | call => cases hm
  | _ => trivial

theorem Operates.congr_next {next next' : Option Token} {t : Token} {op : Operator}
    (h : Operates next t op) (ht : t = .keyword .not_ → negatable next') :
    Operates next' t op := by
  cases h with
  | binary h => exact .binary h
  | like h => exact .like h
  | negation _ => exact .negation (ht rfl)
  | _ => constructor

theorem Passes.congr_next {next next' : Option Token} {t : Token} {f : Frame}
    (h : Passes next t f) (ht : t = .keyword .not_ → negatable next) : Passes next' t f := by
  cases f with
  | operators l => exact fun op hop => h op (hop.congr_next ht)
  | _ => exact h

/-- Where NOT is taken after an operand, it negates the operator that follows. -/
theorem Takes.negatable {next : Option Token} {F : List Frame} {m : Mode} {F' : List Frame}
    (h : Takes next F (.keyword .not_) m F') : negatable next := by
  cases h with
  | operator hop _ =>
    cases hop with
    | negation hn => exact hn
    | binary h | like h => cases h

theorem Takes.congr_next {next next' : Option Token} {F : List Frame} {t : Token} {m : Mode}
    {F' : List Frame} (h : Takes next F t m F') (hm : m.Admits next') : Takes next' F t m F' := by
  cases h with
  | operator hop hl =>
    refine .operator (hop.congr_next ?_) hl
    rintro rfl
    cases hop with
    | negation _ => exact hm
    | binary h | like h => cases h
  | _ => constructor

theorem Starts.congr_next {next next' : Option Token} {F : List Frame} {b : Bool} {t : Token}
    {u : Bool} {m : Mode} {F' : List Frame} (h : Starts F next b t u m F')
    (hm : m.Admits next') : Starts F next' b t u m F' := by
  cases h with
  | literal ht => exact .literal ht
  | sign ht => exact .sign ht
  | not hb => exact .not hb
  | function ht _ => exact .function ht hm
  | _ => constructor

/-- A move looks at the token that follows as far as the mode after it says. -/
theorem Move.congr_next {next next' : Option Token} {F : List Frame} {m : Mode} {t : Token}
    {u : Bool} {m' : Mode} {F' : List Frame} (h : Move F next m t u m' F')
    (hm : m'.Admits next') : Move F next' m t u m' F' := by
  cases h with
  | resume hc hF hX hG =>
    have ht : t = .keyword .not_ → negatable next := by
      rintro rfl
      exact hG.negatable
    exact .resume hc hF (fun f hf => (hX f hf).congr_next ht) (hG.congr_next hm)
  | operand h => exact .operand (h.congr_next hm)
  | signed h => exact .signed (h.congr_next hm)
  | isOperand hne h => exact .isOperand hne (h.congr_next hm)
  | argument h => exact .argument (h.congr_next hm)
  | subject h => exact .subject (h.congr_next hm)
  | item h => exact .item (h.congr_next hm)
  | collation ht => exact .collation ht
  | notLike ht => exact .notLike ht
  | _ => constructor

theorem Reads.congr_next {next next' : Option Token} {m m' : Mode} {F F' : List Frame}
    {f : Fragment} (h : Reads next m F f m' F') (hm : m'.isComplete) :
    Reads next' m F f m' F' := by
  induction h with
  | done => exact .done
  | @word _ _ w ws _ _ _ _ hmove hrest ih =>
    cases ws with
    | nil =>
      cases hrest
      exact .word (hmove.congr_next (Mode.admits_of_isComplete hm _)) .done
    | cons v vs => exact .word hmove (ih hm)

/-! ## Reading the lexemes of a run -/

/-- Reading lexemes adds the words of a run to the draft. -/
theorem readFrom_reads {c : Clause} {m m' : Mode} {F F' : List Frame} {f : Fragment}
    {rest : List Lexeme} (h : Reads (rest.head?.map Lexeme.token) m F f m' F') :
    ∀ {es : List Lexeme} {d : Draft}, f.Spells es →
      readFrom (.expr c m F) d (es ++ rest) =
        readFrom (.expr c m' F') ⟨d.statement, d.words ++ f⟩ rest := by
  induction h with
  | done =>
    intro es d hs
    obtain rfl := List.map_eq_nil_iff.mp hs.symm
    rw [List.nil_append, List.append_nil]
  | @word m F w ws m' F' m'' F'' hmove _ ih =>
    intro es d hs
    obtain ⟨l, ls, rfl, ht, hx, hs'⟩ := hs.cons_inv
    rw [hs'.lead, ht] at hmove
    rw [List.cons_append, readFrom, Place.step, hmove.exprStep_eq c]
    simp only [Draft.close, Draft.act]
    rw [ih hs', ← ht, ← hx]
    simp

/-! ## The end of an expression -/

/-- The tokens that may follow a complete expression. -/
def endsExpression : Token → Bool
  | .source _ | .ident | .symbol .comma => true
  | .keyword k => k ∈ [.as_, .where_, .group, .having, .order, .limit, .offset, .asc, .desc]
  | _ => false

/-- What follows the complete expression of a clause is read. -/
def afterExpr (c : Clause) (d : Draft) : List Lexeme → Except SyntaxError (Statement Fragment)
  | [] =>
    if c = .column then .error (.incomplete .source)
    else .ok (d.close (some c.slot)).statement
  | l :: rest =>
    match c.endStep l.token with
    | .ok s => readFrom s.place ((d.close s.ended).act l s.action) rest
    | .error e => .error (.unexpected e l.start)

theorem not_operates_of_endsExpression {t : Token} (ht : endsExpression t)
    {next : Option Token} {op : Operator} : ¬ Operates next t op := by
  have hop : Operator.ofToken? next t = none := by
    cases t with
    | keyword k => cases k <;> first | rfl | exact absurd ht (by decide)
    | symbol s => cases s <;> first | rfl | exact absurd ht (by decide)
    | _ => rfl
  intro h
  exact nomatch hop.symm.trans (ofToken?_eq_some_iff.mpr h)

/-- What is no operator passes the frames that may stay open, ESCAPE apart. -/
theorem passes_of_not_operates {t : Token} {next : Option Token}
    (ht : ∀ op, ¬ Operates next t op) (hescape : t ≠ .keyword .escape) {f : Frame}
    (hf : f.isLoose) : Passes next t f := by
  cases f with
  | operators l => exact fun op hop => absurd hop (ht op)
  | pattern => exact hescape
  | _ => exact absurd hf (by decide)

theorem passes_of_endsExpression {t : Token} (ht : endsExpression t) {next : Option Token}
    {f : Frame} (hf : f.isLoose) : Passes next t f := by
  refine passes_of_not_operates (fun _ => not_operates_of_endsExpression ht) ?_ hf
  rintro rfl
  exact absurd ht (by decide)

theorem ne_of_endsExpression {t : Token} (ht : endsExpression t) :
    t ≠ .symbol .dot ∧ t ≠ .symbol .openParen ∧ t ≠ .keyword .collate := by
  refine ⟨?_, ?_, ?_⟩ <;> rintro rfl <;> exact absurd ht (by decide)

theorem isLoose_of_passes {next : Option Token} {t : Token} {f : Frame} (h : Passes next t f) :
    f.isLoose := by
  cases f <;> first | rfl | exact h.elim

theorem resume_none_iff {F : List Frame} :
    (∃ r, resume none none F = .ok r) ↔ ∀ f ∈ F, f.isLoose := by
  induction F with
  | nil => simp [resume]
  | cons f F ih =>
    rw [List.forall_mem_cons, ← ih]
    cases f <;> simp [resume, Frame.isLoose]

/-- Where an expression is complete, its clause decides what comes next. -/
theorem exprStep_of_endsExpression {m : Mode} {F : List Frame} (hm : m.isComplete)
    (hF : ∀ f ∈ F, f.isLoose) {t : Token} (ht : endsExpression t) (c : Clause)
    (next : Option Token) : exprStep c m F t next = c.endStep t := by
  rw [exprStep_complete hm (ne_of_endsExpression ht), afterOperand,
    resume_outside_iff.mpr fun f hf => passes_of_endsExpression ht (hF f hf)]

theorem finish_of_isComplete {m : Mode} {F : List Frame} (hm : m.isComplete)
    (hF : ∀ f ∈ F, f.isLoose) (c : Clause) :
    Place.finish (.expr c m F) = if c = .column then .error .source else .ok (some c.slot) := by
  obtain ⟨r, hr⟩ := resume_none_iff.mpr hF
  have hfinish : Place.finish (.expr c m F) = endAfterOperand c F := by
    cases m <;> first | rfl | exact absurd hm (by decide)
  rw [hfinish, endAfterOperand, hr]

theorem readFrom_complete {c : Clause} {m : Mode} {F : List Frame} {d : Draft} {ls : List Lexeme}
    (hm : m.isComplete) (hF : ∀ f ∈ F, f.isLoose)
    (hl : ∀ l ∈ ls.head?, endsExpression l.token) :
    readFrom (.expr c m F) d ls = afterExpr c d ls := by
  cases ls with
  | nil =>
    rw [readFrom, finish_of_isComplete hm hF, afterExpr]
    by_cases hc : c = .column <;> simp [hc]
  | cons l rest =>
    rw [readFrom, Place.step, exprStep_of_endsExpression hm hF (hl l rfl)]
    cases hend : c.endStep l.token <;> simp [afterExpr, hend]

/-- **An expression is read as its words**, in every clause. -/
theorem readFrom_of_isExpression {c : Clause} {f : Fragment} {es rest : List Lexeme} {d : Draft}
    (hf : f.IsExpression) (hs : f.Spells es)
    (hl : ∀ l ∈ rest.head?, endsExpression l.token) :
    readFrom (.exprStart c) d (es ++ rest) = afterExpr c ⟨d.statement, d.words ++ f⟩ rest := by
  obtain ⟨m, F, hreads, hm, hF⟩ := hf
  rw [Place.exprStart, readFrom_reads (hreads.congr_next hm) hs, readFrom_complete hm hF hl]

theorem readFrom_expr_split {c : Clause} {s : Statement Fragment} :
    ∀ {ls : List Lexeme} {m : Mode} {F : List Frame} {d : Draft},
      readFrom (.expr c m F) d ls = .ok s →
      ∃ es rest f m' F', ls = es ++ rest ∧ f.Spells es ∧
        Reads (rest.head?.map Lexeme.token) m F f m' F' ∧ m'.isComplete ∧
        (∀ g ∈ F', g.isLoose) ∧ afterExpr c ⟨d.statement, d.words ++ f⟩ rest = .ok s
  | [], m, F, d, h => by
    have hm : m.isComplete := by
      cases m <;> first | rfl | cases h
    have hF : ∀ f ∈ F, f.isLoose := by
      rw [← resume_none_iff]
      cases hr : resume none none F with
      | ok r => exact ⟨r, rfl⟩
      | error e =>
        cases m <;> first
          | exact absurd hm (by decide)
          | exact absurd h (by simp [readFrom, Place.finish, endAfterOperand, hr])
    refine ⟨[], [], [], m, F, rfl, rfl, .done, hm, hF, ?_⟩
    rw [List.append_nil, ← readFrom_complete hm hF (by simp)]
    exact h
  | l :: rest, m, F, d, h => by
    rw [readFrom] at h
    cases hstep : Place.step (.expr c m F) l.token (rest.head?.map Lexeme.token) with
    | error e => rw [hstep] at h; cases h
    | ok st =>
      rw [hstep] at h
      simp only at h
      rcases exprStep_cases hstep with ⟨u, m', F', hmove, rfl⟩ | ⟨hm, hF, hend⟩
      · obtain ⟨es, rest', f, m'', F'', rfl, hs, hreads, hm, hF, hafter⟩ := readFrom_expr_split h
        refine ⟨l :: es, rest', ⟨l.token, l.text, u⟩ :: f, m'', F'', rfl, ?_, .word ?_ hreads, hm,
          hF, ?_⟩
        · exact congrArg (l.spelling :: ·) hs
        · rwa [hs.lead]
        · simpa [Draft.close, Draft.act] using hafter
      · refine ⟨[], l :: rest, [], m, F, rfl, rfl, .done, hm,
          fun f hf => isLoose_of_passes (hF f hf), ?_⟩
        rw [List.append_nil, afterExpr, hend]
        exact h

/-- **A reading that succeeds from the start of an expression** reads an expression first. -/
theorem readFrom_expr {c : Clause} {ls : List Lexeme} {d : Draft} {s : Statement Fragment}
    (h : readFrom (.exprStart c) d ls = .ok s) :
    ∃ es rest f, ls = es ++ rest ∧ f.Spells es ∧ f.IsExpression ∧
      afterExpr c ⟨d.statement, d.words ++ f⟩ rest = .ok s := by
  obtain ⟨es, rest, f, m, F, hls, hs, hreads, hm, hF, hafter⟩ := readFrom_expr_split h
  exact ⟨es, rest, f, hls, hs, ⟨m, F, hreads.congr_next hm, hm, hF⟩, hafter⟩

end TreeQuery.Query
