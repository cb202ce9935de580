import Mathlib.Data.List.Chain
import TreeQuery.Proofs.Query.Acceptance
import TreeQuery.Proofs.Query.SqlText

/-!
# The text of a fragment

`Fragment.chars` writes the words of a fragment with a space between two of them only where the
rules of `Fragment.spaced` ask for one. Here it is shown that no rule ever joins two words that
would be read differently once they are joined, or that would begin a comment.

The argument is about neighbours. A run of the automaton allows few pairs of words that are written
without a space: a dot stands between two names, and a sign, a parenthesis, a comma or the name of
a function may be followed by anything that can come next. `Move.joins` checks each pair, and
`Fragment.Legible.chars_induction` puts the words together from the last one to the first.

Result: **`tokenize_pieces`**.
-/

namespace TreeQuery.Query

open Grammar (binaryLevel isSign isLikeWord)

/-! ## Neighbours in a run -/

section Neighbours

variable {F F' : List Frame} {next : Option Token} {m m' : Mode} {t : Token} {u : Bool}

theorem Starts.ne_dot {b : Bool} (h : Starts F next b (.symbol .dot) u m' F') : False := by
  cases h with
  | literal h | sign h | function h => exact absurd h (by decide)

theorem Takes.ne_dot {G : List Frame} (h : Takes next G (.symbol .dot) m' F') : False := by
  cases h with
  | operator hop =>
    cases hop with
    | binary h | like h => cases h

/-- A dot stands after a name and before a member. -/
theorem Move.of_dot (h : Move F next m (.symbol .dot) u m' F') : m = .name ∧ m' = .member := by
  cases h with
  | dot => exact ⟨rfl, rfl⟩
  | operand h | signed h | isOperand _ h | argument h | subject h | item h => exact h.ne_dot.elim
  | collation h | notLike h => exact absurd h (by decide)
  | resume _ _ _ h => exact h.ne_dot.elim

theorem Starts.eq_ident {b : Bool} (h : Starts F next b t u .name F') : t = .ident := by
  cases h
  rfl

theorem Takes.ne_name {G : List Frame} (h : Takes next G t m' F') : m' ≠ .name := by
  cases h with
  | @operator _ _ _ op => cases op <;> exact fun h => nomatch h
  | _ => exact fun h => nomatch h

theorem Move.to_name (h : Move F next m t u .name F') : t = .ident := by
  generalize hm : Mode.name = m' at h
  cases h with
  | operand h | signed h | isOperand _ h | argument h | subject h | item h =>
    subst hm
    exact h.eq_ident
  | resume _ _ _ h => exact absurd hm.symm h.ne_name
  | _ => cases hm

theorem Move.of_member (h : Move F next .member t u m' F') : t = .ident := by
  cases h with
  | member => rfl
  | resume hm => exact absurd hm (by decide)

theorem Starts.unary {b : Bool} (h : Starts F next b t true m' F') :
    t = .keyword .not_ ∨ isSign t ∧ m' = .signed := by
  cases h with
  | sign h => exact .inr ⟨h, rfl⟩
  | not => exact .inl rfl

/-- Unary words are NOT and the signs. -/
theorem Move.unary (h : Move F next m t true m' F') :
    t = .keyword .not_ ∨ isSign t ∧ m' = .signed := by
  cases h with
  | operand h | signed h | isOperand _ h | argument h | subject h | item h => exact h.unary

theorem Starts.unary_of_sign {b : Bool} (h : Starts F next b t u m' F') (ht : isSign t) : u := by
  cases h with
  | sign => rfl
  | literal h | function h =>
    revert h ht
    cases t with
    | symbol s => cases s <;> decide
    | _ => exact fun h => nomatch h
  | name | group | case_ | not => cases ht

/-- A sign after a sign is unary. -/
theorem Move.unary_of_signed (h : Move F next .signed t u m' F') (ht : isSign t) : u := by
  cases h with
  | signed h => exact h.unary_of_sign ht
  | resume hm => exact absurd hm (by decide)

end Neighbours

/-! ## Tokens that stand between the fragments -/

/-- The tokens that begin a clause, name a column or stand before the columns. -/
def Token.isOuter : Token → Bool
  | .source _ => true
  | .keyword k =>
    k ∈ [.select, .all, .as_, .where_, .group, .having, .order, .limit, .offset]
  | _ => false

section Outer

variable {F F' : List Frame} {next : Option Token} {m m' : Mode} {t : Token} {u : Bool}

theorem not_isOuter_of_isLikeWord (h : isLikeWord t) : ¬ t.isOuter := by
  cases t with
  | keyword k => cases k <;> first | decide | cases h
  | _ => cases h

theorem not_isOuter_of_binaryLevel {q : Nat} (h : binaryLevel t = some q) : ¬ t.isOuter := by
  cases t with
  | keyword k => cases k <;> first | decide | cases h
  | symbol s => simp [Token.isOuter]
  | _ => cases h

theorem Starts.not_isOuter {b : Bool} (h : Starts F next b t u m' F') : ¬ t.isOuter := by
  cases h with
  | literal h =>
    cases t with
    | keyword k => cases k <;> first | decide | cases h
    | source => cases h
    | _ => simp [Token.isOuter]
  | sign h =>
    cases t with
    | symbol s => simp [Token.isOuter]
    | _ => cases h
  | function h => exact not_isOuter_of_isLikeWord h
  | _ => decide

theorem Takes.not_isOuter {G : List Frame} (h : Takes next G t m' F') : ¬ t.isOuter := by
  cases h with
  | operator hop =>
    cases hop with
    | binary h => exact not_isOuter_of_binaryLevel h
    | like h => exact not_isOuter_of_isLikeWord h
    | _ => decide
  | _ => decide

theorem Move.not_isOuter (h : Move F next m t u m' F') : ¬ t.isOuter := by
  cases h with
  | operand h | signed h | isOperand _ h | argument h | subject h | item h => exact h.not_isOuter
  | collation h =>
    cases t with
    | keyword | source => cases h
    | _ => simp [Token.isOuter]
  | notLike h => exact not_isOuter_of_isLikeWord h
  | resume _ _ _ h => exact h.not_isOuter
  | _ => decide

end Outer

/-! ## Words that may be joined -/

/-- A word in a written form that may stand in a fragment. -/
structure Word.Legible (w : Word) : Prop where
  written : w.token.Written w.text
  inner : ¬ w.token.isOuter
  unary : w.unary → w.token = .keyword .not_ ∨ Grammar.isSign w.token

/-- A character may come right after a word: it neither continues its token nor begins a comment
with it. -/
structure Word.Precedes (w : Word) (d : Char) : Prop where
  mayPrecede : w.token.mayPrecede w.text d
  noComment : ∀ c ∈ w.text.getLast?, ¬ Sql.opensComment c d

theorem Word.Legible.precedes {w : Word} (h : w.Legible) {d : Char} (hd : endsFragment d) :
    w.Precedes d := by
  refine ⟨?_, fun c _ => (Sql.endsFragment_ne hd).2.2.2.2 c⟩
  obtain ⟨hwritten, hinner, -⟩ := h
  simp only [endsFragment, Bool.or_eq_true, beq_iff_eq] at hd
  generalize w.token = t at *
  cases t with
  | source path => exact absurd rfl hinner
  | symbol s =>
    rw [hwritten.eq_spelling]
    rcases hd with (rfl | rfl) | rfl <;> cases s <;> rfl
  | _ => rcases hd with (rfl | rfl) | rfl <;> rfl

/-- The reasons to write two words side by side. -/
inductive Word.Glued (v w : Word) : Prop where
  | comma : w.token = .symbol .comma → Glued v w
  | closeParen : w.token = .symbol .closeParen → Glued v w
  | beforeDot : w.token = .symbol .dot → Glued v w
  | openParen : v.token = .symbol .openParen → Glued v w
  | afterDot : v.token = .symbol .dot → Glued v w
  | sign : v.unary → v.token ≠ .keyword .not_ → w.unary = false → Glued v w
  | call : v.isFunctionName → w.token = .symbol .openParen → Glued v w

/-- **No space stands between two words** for one of these reasons only. -/
theorem Word.glued_of_not_spaced {v w : Word} (h : Fragment.spaced v w = false) : v.Glued w := by
  unfold Fragment.spaced at h
  by_cases hafter : w.token = .symbol .comma ∨ w.token = .symbol .closeParen ∨
      w.token = .symbol .dot
  · rcases hafter with ht | ht | ht
    · exact .comma ht
    · exact .closeParen ht
    · exact .beforeDot ht
  rw [if_neg hafter] at h
  by_cases hbefore : v.token = .symbol .openParen ∨ v.token = .symbol .dot
  · exact hbefore.elim .openParen .afterDot
  rw [if_neg hbefore] at h
  by_cases hsign : v.isSign && !w.unary
  · simp only [Word.isSign, Bool.and_eq_true, bne_iff_ne, Bool.not_eq_true'] at hsign
    obtain ⟨⟨hunary, hnot⟩, hother⟩ := hsign
    exact .sign hunary hnot hother
  rw [if_neg hsign] at h
  have hcall : w.token = .symbol .openParen ∧ v.isFunctionName := by simpa using h
  exact .call hcall.2 hcall.1

/-- If no space stands between two words, then the second may come right after the first. -/
def Word.Joins (v w : Word) : Prop :=
  Fragment.spaced v w = false → ∀ d ∈ w.text.head?, v.Precedes d

/-- A symbol of one character is its own text. -/
theorem Word.Legible.head {w : Word} {s : Symbol} {c d : Char} (h : w.Legible)
    (hs : w.token = .symbol s) (hc : s.spelling.toList = [c]) (hd : d ∈ w.text.head?) : d = c := by
  have hwritten := h.written
  rw [hs] at hwritten
  rw [hwritten.eq_spelling, hc] at hd
  exact (Option.some.inj hd).symm

theorem Word.Precedes.of_ne {w : Word} {d : Char} (h : w.token.mayPrecede w.text d)
    (hd : d ≠ '-' ∧ d ≠ '*') : w.Precedes d :=
  ⟨h, fun c _ => by simp [Sql.opensComment, hd]⟩

theorem Word.Precedes.of_symbol {w : Word} {s : Symbol} {d : Char} (c : Char)
    (h : w.token.Written w.text) (hs : w.token = .symbol s) (hc : s.spelling.toList = [c])
    (hd : Token.mayPrecede (.symbol s) [c] d) (hcomment : ¬ Sql.opensComment c d) :
    w.Precedes d := by
  rw [hs] at h
  have htext : w.text = [c] := h.eq_spelling.trans hc
  refine ⟨by rwa [hs, htext], fun b hb => ?_⟩
  rw [htext] at hb
  obtain rfl := Option.some.inj hb
  exact hcomment

theorem isSign_cases {t : Token} (h : isSign t) :
    t = .symbol .plus ∨ t = .symbol .minus ∨ t = .symbol .tilde := by
  cases t with
  | symbol s => cases s <;> first | simp; done | cases h
  | _ => cases h

/-- A sign may come before everything but a minus. -/
theorem Word.Precedes.of_sign {w : Word} {d : Char} (h : w.token.Written w.text)
    (ht : Grammar.isSign w.token) (hd : d ≠ '-') : w.Precedes d := by
  rcases isSign_cases ht with hs | hs | hs
  · exact .of_symbol '+' h hs rfl rfl (by simp [Sql.opensComment])
  · exact .of_symbol '-' h hs rfl rfl (by simp [Sql.opensComment, hd])
  · exact .of_symbol '~' h hs rfl rfl (by simp [Sql.opensComment])

/-- The name of a function continues with no parenthesis. -/
theorem Word.Precedes.of_isFunctionName {w : Word} (h : w.isFunctionName) : w.Precedes '(' := by
  refine .of_ne ?_ (by decide)
  unfold Word.isFunctionName at h
  split at h
  · rename_i ht
    rw [ht]
    rfl
  · rename_i ht
    rw [ht]
    rfl
  · cases h

/-- Words can be joined as `Fragment.spaced` asks for if dots stand where they do in a member, and
a minus after a sign is a sign. -/
theorem Word.Legible.joins {v w : Word} (lv : v.Legible) (lw : w.Legible)
    (hdot : w.token = .symbol .dot → v.token = .ident)
    (hmember : v.token = .symbol .dot → w.token = .ident ∨ ∃ k, w.token = .keyword k)
    (hminus : v.unary → Grammar.isSign v.token → w.token = .symbol .minus → w.unary) :
    v.Joins w := by
  intro hspace d hd
  cases Word.glued_of_not_spaced hspace with
  | comma ht | closeParen ht =>
    obtain rfl := lw.head ht rfl hd
    exact lv.precedes rfl
  | beforeDot ht =>
    obtain rfl := lw.head ht rfl hd
    refine .of_ne ?_ (by decide)
    rw [hdot ht]
    rfl
  | openParen ht => exact .of_symbol '(' lv.written ht rfl rfl (by simp [Sql.opensComment])
  | afterDot ht =>
    have hstart := lw.written.isNameStart_head (hmember ht) hd
    exact .of_symbol '.' lv.written ht rfl
      (by simp [Token.mayPrecede, not_isDigit_of_isNameStart hstart])
      (by simp [Sql.opensComment])
  | sign hunary hnot hother =>
    have hsign := (lv.unary hunary).resolve_left hnot
    refine .of_sign lv.written hsign ?_
    rintro rfl
    have hwunary := hminus hunary hsign (lw.written.eq_minus hd)
    simp [hwunary] at hother
  | call hname ht =>
    obtain rfl := lw.head ht rfl hd
    exact .of_isFunctionName hname

theorem Move.joins {F F' F'' : List Frame} {next next' : Option Token} {m m' m'' : Mode}
    {v w : Word} (hv : Move F next m v.token v.unary m' F')
    (hw : Move F' next' m' w.token w.unary m'' F'') (lv : v.Legible) (lw : w.Legible) :
    v.Joins w := by
  refine lv.joins lw (fun ht => ?_) (fun ht => ?_) (fun hunary hsign ht => ?_)
  · rw [ht] at hw
    obtain ⟨rfl, -⟩ := hw.of_dot
    exact hv.to_name
  · rw [ht] at hv
    obtain ⟨-, rfl⟩ := hv.of_dot
    exact .inl hw.of_member
  · rw [hunary] at hv
    rcases hv.unary with hnot | ⟨-, rfl⟩
    · rw [hnot] at hsign
      cases hsign
    · exact hw.unary_of_signed (by rw [ht]; rfl)

/-! ## Legible fragments -/

/-- The words of a fragment can be told apart in its text. -/
structure Fragment.Legible (f : Fragment) : Prop where
  words : ∀ w ∈ f, w.Legible
  joins : f.IsChain Word.Joins

theorem Reads.joins {next : Option Token} {m m' : Mode} {F F' : List Frame} {f : Fragment}
    (h : Reads next m F f m' F') (hf : ∀ w ∈ f, w.Legible) : f.IsChain Word.Joins := by
  induction h with
  | done => exact .nil
  | word hmove hrest ih =>
    obtain ⟨hw, hws⟩ := List.forall_mem_cons.mp hf
    cases hrest with
    | done => exact .singleton _
    | word hmove' hrest' =>
      exact .cons_cons (hmove.joins hmove' hw (hws _ List.mem_cons_self)) (ih hws)

theorem Fragment.charsAfter_cons (v w : Word) (ws : Fragment) :
    Fragment.charsAfter v (w :: ws) =
      (if Fragment.spaced v w then [' '] else []) ++ (w.text ++ Fragment.charsAfter w ws) := by
  rw [Fragment.charsAfter, List.append_assoc]

namespace Fragment.Legible

section Induction

variable {P : List Char → Fragment → Prop} {rest : List Char}
  (hend : ∀ d ∈ rest.head?, endsFragment d) (hrest : P rest [])
  (hblank : ∀ {cs f}, P cs f → P (' ' :: cs) f)
  (hword : ∀ {w cs f}, w.Legible → (∀ d ∈ cs.head?, w.Precedes d) → P cs f →
    P (w.text ++ cs) (w :: f))

include hend hrest hblank hword

theorem charsAfter_induction : ∀ {f : Fragment} {v : Word}, Fragment.Legible (v :: f) →
    P (Fragment.charsAfter v f ++ rest) f ∧
      ∀ d ∈ (Fragment.charsAfter v f ++ rest).head?, v.Precedes d
  | [], v, h => ⟨hrest, fun d hd => (h.words v List.mem_cons_self).precedes (hend d hd)⟩
  | w :: f, v, h => by
    obtain ⟨hv, hws⟩ := List.forall_mem_cons.mp h.words
    obtain ⟨hjoin, hjoins⟩ := List.isChain_cons_cons.mp h.joins
    have hw := hws w List.mem_cons_self
    obtain ⟨hafter, hhead⟩ := charsAfter_induction ⟨hws, hjoins⟩
    have hhere := hword hw hhead hafter
    rw [charsAfter_cons, List.append_assoc, List.append_assoc]
    by_cases hspace : Fragment.spaced v w
    · rw [if_pos hspace]
      refine ⟨hblank hhere, fun d hd => ?_⟩
      obtain rfl := Option.some.inj hd
      exact hv.precedes rfl
    · rw [if_neg hspace]
      refine ⟨hhere, fun d hd => hjoin (by simpa using hspace) d ?_⟩
      obtain ⟨c, cs, htext⟩ := List.exists_cons_of_ne_nil hw.written.ne_nil
      rw [htext] at hd ⊢
      exact hd

/-- **Induction on the text of a legible fragment**, from its last word to the first, before
everything that may follow it. -/
theorem chars_induction {f : Fragment} (h : f.Legible) : P (f.chars ++ rest) f := by
  cases f with
  | nil => exact hrest
  | cons w f =>
    obtain ⟨hafter, hhead⟩ := charsAfter_induction hend hrest hblank hword h
    rw [Fragment.chars, List.append_assoc]
    exact hword (h.words w List.mem_cons_self) hhead hafter

end Induction

/-- A legible fragment is cut into its words. -/
theorem lexes {f : Fragment} (h : f.Legible) {rest : List Char} {ws : List Spelling}
    (hend : ∀ d ∈ rest.head?, endsFragment d) (hws : Lexes rest ws) :
    Lexes (f.chars ++ rest) (f.map Word.spelling ++ ws) :=
  chars_induction (P := fun cs f => Lexes cs (f.map Word.spelling ++ ws)) hend hws (.gap rfl)
    (fun hw hhead hcs => .of_written hw.written (fun d hd => (hhead d hd).mayPrecede) hcs) h

/-- The text of a legible fragment on its own has the tokens of its words. -/
theorem tokenize_text {f : Fragment} (h : f.Legible) :
    ∃ ls, tokenize f.text = .ok ls ∧ ls.map Lexeme.spelling = f.map Word.spelling := by
  have hlexes : Lexes (f.chars ++ []) (f.map Word.spelling ++ []) :=
    h.lexes forall_mem_head?_nil .nil
  rw [List.append_nil, List.append_nil] at hlexes
  have htext : f.text.toList = f.chars := String.toList_ofList
  rw [← htext] at hlexes
  exact exists_tokenize_iff.mpr hlexes

end Fragment.Legible

/-! ## The fragments of a statement -/

theorem Reads.unary {next : Option Token} {m m' : Mode} {F F' : List Frame} {f : Fragment}
    (h : Reads next m F f m' F') :
    ∀ w ∈ f, w.unary → w.token = .keyword .not_ ∨ isSign w.token := by
  induction h with
  | done => exact fun _ hw => nomatch hw
  | word hmove _ ih =>
    refine List.forall_mem_cons.mpr ⟨fun hu => ?_, ih⟩
    rw [hu] at hmove
    exact hmove.unary.imp_right And.left

theorem Reads.not_isOuter {next : Option Token} {m m' : Mode} {F F' : List Frame} {f : Fragment}
    (h : Reads next m F f m' F') : ∀ w ∈ f, ¬ w.token.isOuter := by
  induction h with
  | done => exact fun _ hw => nomatch hw
  | word hmove _ ih => exact List.forall_mem_cons.mpr ⟨hmove.not_isOuter, ih⟩

/-- Lexemes whose texts are written forms of their tokens, as those of every text are. -/
def AllWritten (ls : List Lexeme) : Prop :=
  ∀ l ∈ ls, l.token.Written l.text

theorem Fragment.Spells.written {f : Fragment} {ls : List Lexeme} (h : f.Spells ls)
    (hls : AllWritten ls) : ∀ w ∈ f, w.token.Written w.text := by
  intro w hw
  have hmem := List.mem_map_of_mem (f := Word.spelling) hw
  rw [h] at hmem
  obtain ⟨l, hl, heq⟩ := List.mem_map.mp hmem
  obtain ⟨ht, hx⟩ := Prod.mk.inj heq
  rw [← ht, ← hx]
  exact hls l hl

theorem Layout.Expr.legible {f : Fragment} {ls : List Lexeme} (h : Layout.Expr f ls)
    (hls : AllWritten ls) : f.Legible := by
  obtain ⟨⟨m, F, hreads, -, -⟩, hs⟩ := h
  have hwords : ∀ w ∈ f, w.Legible := fun w hw =>
    ⟨hs.written hls w hw, hreads.not_isOuter w hw, hreads.unary w hw⟩
  exact ⟨hwords, hreads.joins hwords⟩

theorem Layout.OrderTerm.legible {f : Fragment} {ls : List Lexeme} (h : Layout.OrderTerm f ls)
    (hls : AllWritten ls) : f.Legible := by
  cases h with
  | plain h => exact h.legible hls
  | @directed f ls l h hl =>
    obtain ⟨hexpr, hlast⟩ := List.forall_mem_append.mp hls
    obtain ⟨hwords, hjoins⟩ := h.legible hexpr
    obtain ⟨k, hk⟩ : ∃ k, l.token = .keyword k := by
      rcases hl with hl | hl <;> exact ⟨_, hl⟩
    have hinner : ¬ l.token.isOuter := by
      rcases hl with hl | hl <;> rw [hl] <;> decide
    have hword : Word.Legible ⟨l.token, l.text, false⟩ :=
      ⟨hlast l List.mem_cons_self, hinner, fun hu => nomatch hu⟩
    refine ⟨List.forall_mem_append.mpr ⟨hwords, by simpa using hword⟩,
      hjoins.append (.singleton _) fun v hv w hw => ?_⟩
    obtain rfl := Option.some.inj hw
    have hne : ∀ {s : Symbol}, l.token ≠ .symbol s := fun ht => nomatch hk.symm.trans ht
    exact (hwords v (List.mem_of_getLast? hv)).joins hword (fun ht => absurd ht hne)
      (fun _ => .inr ⟨k, hk⟩) fun _ _ ht => absurd ht hne

/-! ### The pieces of a layout -/

namespace Layout

/-- Some neighbours among the lexemes are those of the fragment. -/
def Contains (ls : List Lexeme) (f : Fragment) : Prop :=
  ∃ es, es <:+: ls ∧ OrderTerm f es

variable {f : Fragment} {ls ms : List Lexeme}

theorem OrderTerm.spells (h : OrderTerm f ls) : f.Spells ls := by
  cases h with
  | plain h => exact h.2
  | directed h _ =>
    rw [Fragment.Spells, List.map_append, List.map_append, h.2]
    rfl

theorem OrderTerm.contains (h : OrderTerm f ls) : Contains ls f :=
  ⟨ls, List.infix_rfl, h⟩

theorem Expr.contains (h : Expr f ls) : Contains ls f :=
  OrderTerm.contains (.plain h)

theorem Contains.cons (h : Contains ls f) (l : Lexeme) : Contains (l :: ls) f := by
  obtain ⟨es, hes, hf⟩ := h
  exact ⟨es, List.infix_cons hes, hf⟩

theorem Contains.left (h : Contains ls f) (ms : List Lexeme) : Contains (ls ++ ms) f := by
  obtain ⟨es, hes, hf⟩ := h
  exact ⟨es, List.infix_append_of_infix_left hes, hf⟩

theorem Contains.right (h : Contains ms f) (ls : List Lexeme) : Contains (ls ++ ms) f := by
  obtain ⟨es, hes, hf⟩ := h
  exact ⟨es, List.infix_append_of_infix_right hes, hf⟩

theorem Separated.contains {α : Type} {R : α → List Lexeme → Prop} (pieces : α → List Fragment)
    (hR : ∀ {a ls}, R a ls → ∀ f ∈ pieces a, Contains ls f) {as : List α}
    (h : Separated R as ls) : ∀ f ∈ as.flatMap pieces, Contains ls f := by
  induction h with
  | one ha =>
    intro f hf
    rw [List.flatMap_singleton] at hf
    exact hR ha f hf
  | more ha _ _ ih =>
    intro f hf
    rw [List.flatMap_cons] at hf
    rcases List.mem_append.mp hf with hf | hf
    · exact (hR ha f hf).left _
    · exact ((ih f hf).cons _).right _

theorem Separated.contains_each {R : Fragment → List Lexeme → Prop}
    (hR : ∀ {f ls}, R f ls → Contains ls f) {fs : List Fragment} (h : Separated R fs ls) :
    ∀ f ∈ fs, Contains ls f := by
  intro f hf
  refine Separated.contains (fun f => [f]) (fun hg g hmem => ?_) h f (by simpa using hf)
  obtain rfl := List.mem_singleton.mp hmem
  exact hR hg

theorem Column.contains {c : Query.Column Fragment} (h : Column c ls) :
    ∀ f ∈ c.pieces, Contains ls f := by
  intro f hf
  cases h with
  | wildcard => cases hf
  | expr he =>
    obtain rfl := List.mem_singleton.mp hf
    exact he.contains
  | aliased he | named he =>
    obtain rfl := List.mem_singleton.mp hf
    exact he.contains.left _

theorem Where.contains {p : Option Fragment} (h : Where p ls) : ∀ f ∈ p, Contains ls f := by
  intro f hf
  cases h with
  | none => cases hf
  | some _ he =>
    obtain rfl := Option.some.inj hf
    exact he.contains.cons _

theorem GroupBy.contains {g : List Fragment} {k : Option Fragment} (h : GroupBy g k ls) :
    ∀ f, f ∈ g ∨ f ∈ k → Contains ls f := by
  rintro f (hf | hf)
  · cases h with
    | none => cases hf
    | some _ _ hfs => exact ((hfs.contains_each Expr.contains f hf).cons _).cons _
    | having _ _ hfs => exact (((hfs.contains_each Expr.contains f hf).left _).cons _).cons _
  · cases h with
    | none | some => cases hf
    | having _ _ _ _ he =>
      obtain rfl := Option.some.inj hf
      exact (((he.contains.cons _).right _).cons _).cons _

theorem OrderBy.contains {o : List Fragment} (h : OrderBy o ls) : ∀ f ∈ o, Contains ls f := by
  intro f hf
  cases h with
  | none => cases hf
  | some _ _ hfs => exact ((hfs.contains_each OrderTerm.contains f hf).cons _).cons _

theorem Limit.contains {n k : Option Fragment} (h : Limit n k ls) :
    ∀ f, f ∈ n ∨ f ∈ k → Contains ls f := by
  intro f hf
  cases h with
  | none => rcases hf with hf | hf <;> cases hf
  | some _ he =>
    rcases hf with hf | hf
    · obtain rfl := Option.some.inj hf
      exact he.contains.cons _
    · cases hf
  | offset _ he _ hg =>
    rcases hf with hf | hf <;> obtain rfl := Option.some.inj hf
    · exact (he.contains.left _).cons _
    · exact ((hg.contains.cons _).right _).cons _
  | comma _ he _ hg =>
    rcases hf with hf | hf <;> obtain rfl := Option.some.inj hf
    · exact ((hg.contains.cons _).right _).cons _
    · exact (he.contains.left _).cons _

end Layout

/-- The words of every piece of a statement stand side by side among its lexemes. -/
theorem Layout.contains {s : Statement Fragment} {ls : List Lexeme} (h : Layout s ls) :
    ∀ f ∈ s.pieces, Layout.Contains ls f := by
  obtain ⟨hselect, hq, hcs, hsource, hw, hg, ho, hl⟩ := h
  intro f hf
  simp only [Statement.pieces, List.mem_append, Option.mem_toList] at hf
  rcases hf with (((((hf | hf) | hf) | hf) | hf) | hf) | hf
  · have hmem := Separated.contains Column.pieces (fun hc => hc.contains) hcs f hf
    exact ((hmem.left _).right _).cons _
  · exact ((((hw.contains f hf).left _).cons _).right _ |>.right _).cons _
  · exact (((((hg.contains f (.inl hf)).left _).right _).cons _).right _ |>.right _).cons _
  · exact (((((hg.contains f (.inr hf)).left _).right _).cons _).right _ |>.right _).cons _
  · exact ((((((ho.contains f hf).left _).right _).right _).cons _).right _ |>.right _).cons _
  · exact ((((((hl.contains f (.inl hf)).right _).right _).right _).cons _).right _
      |>.right _).cons _
  · exact ((((((hl.contains f (.inr hf)).right _).right _).right _).cons _).right _
      |>.right _).cons _

theorem allWritten_of_tokenize {text : String} {ls : List Lexeme} (h : tokenize text = .ok ls) :
    AllWritten ls := by
  intro l hl
  exact (exists_tokenize_iff.mp ⟨ls, h, rfl⟩).written _ (List.mem_map_of_mem hl)

/-- **Every fragment is read as its own words again.** A text that is read as a statement is laid
out as fragments of its lexemes, the statement holds the texts of these fragments, and each text
on its own is cut into the very tokens and texts that stand in its clause. -/
theorem tokenize_pieces {text : String} {s : Statement String} (h : Statement.ofText text = .ok s) :
    ∃ o ls, tokenize text = .ok ls ∧ Layout o ls ∧ s = o.map Fragment.text ∧
      ∀ f ∈ o.pieces, ∃ es again, es <:+: ls ∧ f.Spells es ∧ tokenize f.text = .ok again ∧
        again.map Lexeme.spelling = es.map Lexeme.spelling := by
  obtain ⟨o, ls, hls, hlayout, hs⟩ := ofText_eq_ok_iff.mp h
  refine ⟨o, ls, hls, hlayout, hs, fun f hf => ?_⟩
  obtain ⟨es, hes, hterm⟩ := hlayout.contains f hf
  have hlegible := hterm.legible fun l hl => allWritten_of_tokenize hls l (hes.subset hl)
  obtain ⟨again, hagain, hspelling⟩ := hlegible.tokenize_text
  exact ⟨es, again, hes, hterm.spells, hagain, hspelling.trans hterm.spells⟩

/-- Two signs, a call and a member. -/
theorem tokenize_pieces_signs :
    Statement.ofText "select - - a.b , COUNT ( * ) from x where NOT - +1" =
        .ok { path := "x", columns := [.expr "- -a.b" none, .expr "COUNT(*)" none],
              predicate := some "NOT - +1" } ∧
      ∃ o ls, tokenize "select - - a.b , COUNT ( * ) from x where NOT - +1" = .ok ls ∧
        Layout o ls ∧
        { path := "x", columns := [.expr "- -a.b" none, .expr "COUNT(*)" none],
          predicate := some "NOT - +1" } = o.map Fragment.text ∧
        ∀ f ∈ o.pieces, ∃ es again, es <:+: ls ∧ f.Spells es ∧ tokenize f.text = .ok again ∧
          again.map Lexeme.spelling = es.map Lexeme.spelling :=
  ⟨by decide +kernel, tokenize_pieces (by decide +kernel)⟩

end TreeQuery.Query
