import TreeQuery.Proofs.Query.FragmentText
import TreeQuery.Proofs.Query.SqlClauses

/-!
# Fragments in SQL

A fragment of a statement, put into SQL as it is written, is read there as the pieces of its words
(`Fragment.Legible.pieces`), opens no clause, and closes the parentheses that it opens.

The parentheses are counted along the run of the automaton. `depth` says how many are open in a
state: one for each list, argument list and group among its frames, and one for a list whose
parenthesis has just been read. Every move changes it by the parenthesis that it reads
(`Move.depth_eq`), and there is none left where an expression is complete.

Result: **`Layout.OrderTerm.closed`**.
-/

namespace TreeQuery.Query

open Grammar (isLikeWord)
open Sql (Piece Pieces Closed marks parens)

/-! ## Words -/

/-- The pieces of a word in SQL: a symbol of two characters is two marks. -/
def Word.pieces (w : Word) : List Piece :=
  match w.token with
  | .number => [.number w.text]
  | .doubleQuoted | .singleQuoted => [.quoted w.text]
  | .symbol _ => w.text.map .mark
  | _ => [.word w.text]

/-- The pieces of a fragment in SQL. -/
def Fragment.pieces (f : Fragment) : List Piece :=
  f.flatMap Word.pieces

theorem Symbol.spelling_cases (s : Symbol) :
    (∃ c, s.spelling.toList = [c] ∧ Sql.isMark c ∧ (c = '.' → s = .dot)) ∨
      ∃ c d, s.spelling.toList = [c, d] ∧ (Sql.isMark c ∧ c ≠ '.') ∧ (Sql.isMark d ∧ d ≠ '.') ∧
        ¬ Sql.opensComment c d := by
  cases s <;> first
    | exact .inl ⟨_, rfl, by decide, by decide⟩
    | exact .inr ⟨_, _, rfl, by decide, by decide, by decide⟩

theorem Word.Legible.pieces_symbol {w : Word} {s : Symbol} (h : w.Legible)
    (hs : w.token = .symbol s) {rest : List Char} {ps : List Piece}
    (hrest : ∀ d ∈ rest.head?, w.Precedes d) (hps : Pieces rest ps) :
    Pieces (w.text ++ rest) (w.text.map .mark ++ ps) := by
  have htext : w.text = s.spelling.toList := Token.Written.eq_spelling (hs ▸ h.written)
  rcases s.spelling_cases with ⟨c, hc, hmark, hdot⟩ | ⟨c, d, hcd, hc, hd, hcomment⟩
  · rw [hc] at htext
    have hnext : ∀ d ∈ rest.head?, ¬ Sql.opensComment c d :=
      fun d hd => (hrest d hd).noComment c (by rw [htext]; rfl)
    rw [htext]
    refine hps.mark hmark hnext fun hpoint d hd => ?_
    have hdigit := (hrest d hd).mayPrecede
    rw [hs, hdot hpoint] at hdigit
    simpa [Token.mayPrecede] using hdigit
  · rw [hcd] at htext
    have hnext : ∀ e ∈ rest.head?, ¬ Sql.opensComment d e :=
      fun e he => (hrest e he).noComment d (by rw [htext]; rfl)
    rw [htext]
    refine (hps.mark hd.1 hnext fun h => absurd h hd.2).mark hc.1 ?_ fun h => absurd h hc.2
    exact fun e he => Option.some.inj he ▸ hcomment

/-- A word is read as its pieces before everything that it may precede. -/
theorem Word.Legible.pieces_append {w : Word} (h : w.Legible) {rest : List Char}
    {ps : List Piece} (hrest : ∀ d ∈ rest.head?, w.Precedes d) (hps : Pieces rest ps) :
    Pieces (w.text ++ rest) (w.pieces ++ ps) := by
  have hnext := fun d hd => (hrest d hd).mayPrecede
  have hsymbol := fun {s} (hs : w.token = .symbol s) => h.pieces_symbol hs hrest hps
  obtain ⟨hwritten, hinner, -⟩ := h
  obtain ⟨t, text, u⟩ := w
  simp only at *
  cases hwritten with
  | @keyword k w hk =>
    obtain ⟨c, cs, rfl, hc, hcs⟩ := isName_of_map_toLower hk k.word_isName
    exact .cons (.word hc hcs fun d hd => by simpa [Token.mayPrecede] using hnext d hd) hps
  | ident hc hcs =>
    exact .cons (.word hc hcs fun d hd => by simpa [Token.mayPrecede] using hnext d hd) hps
  | @number text htext =>
    obtain ⟨c, cs, rfl⟩ := List.exists_cons_of_ne_nil (Token.Written.number htext).ne_nil
    exact .cons (.number htext (endsNumber_of_mayPrecede hnext)) hps
  | doubleQuoted hcs =>
    exact .cons (.quoted rfl hcs fun d hd => by simpa [Token.mayPrecede] using hnext d hd) hps
  | singleQuoted hcs =>
    exact .cons (.quoted rfl hcs fun d hd => by simpa [Token.mayPrecede] using hnext d hd) hps
  | symbol s => exact hsymbol rfl
  | source => exact absurd rfl hinner

/-- **A legible fragment is read as the pieces of its words.** -/
theorem Fragment.Legible.pieces {f : Fragment} (h : f.Legible) : Pieces f.chars f.pieces := by
  have hpieces := chars_induction (P := fun cs f => Pieces cs f.pieces) forall_mem_head?_nil .nil
    (.gap rfl) (fun hw hhead hcs => hw.pieces_append hhead hcs) h
  rwa [List.append_nil] at hpieces

/-! ### What the pieces of a word are not -/

theorem clause?_keyword {k : Keyword} {w : List Char} (hw : w.map Char.toLower = k.word.toList)
    (hk : ¬ (Token.keyword k).isOuter) : (Piece.word w).clause? = none := by
  rw [Piece.clause?, hw]
  cases k <;> first | exact absurd rfl hk | decide

theorem clause?_ident {w : List Char} (hfrom : ¬ Form.From w) (hk : Keyword.ofWord? w = none) :
    (Piece.word w).clause? = none := by
  rw [Piece.clause?, List.find?_eq_none]
  intro c _ hc
  have hword : w.map Char.toLower = c.word.toList.map Char.toLower := (beq_iff_eq.mp hc).symm
  have hkeyword : ∀ k : Keyword, w.map Char.toLower ≠ k.word.toList := by
    intro k h
    rw [Keyword.ofWord?_eq_some_iff.mpr h] at hk
    cases hk
  cases c with
  | select => exact hkeyword .select hword
  | from_ => exact hfrom hword
  | where_ => exact hkeyword .where_ hword
  | group => exact hkeyword .group hword
  | having => exact hkeyword .having hword
  | order => exact hkeyword .order hword
  | limit => exact hkeyword .limit hword
  | offset => exact hkeyword .offset hword

/-- No word of a fragment opens a clause. -/
theorem Word.Legible.clause?_eq_none {w : Word} (h : w.Legible) :
    ∀ p ∈ w.pieces, p.clause? = none := by
  obtain ⟨hwritten, hinner, -⟩ := h
  obtain ⟨t, text, u⟩ := w
  simp only at *
  cases hwritten with
  | keyword hk => simpa [Word.pieces] using clause?_keyword hk hinner
  | ident hc hcs hfrom hk => simpa [Word.pieces] using clause?_ident hfrom hk
  | source => exact absurd rfl hinner
  | symbol s =>
    intro p hp
    obtain ⟨c, -, rfl⟩ := List.mem_map.mp hp
    rfl
  | _ => simp [Word.pieces, Piece.clause?]

/-- No word of a fragment ends a statement or is a parameter. -/
theorem Word.Legible.mark_not_mem {w : Word} (h : w.Legible) :
    .mark ';' ∉ w.pieces ∧ .mark '?' ∉ w.pieces := by
  obtain ⟨hwritten, -, -⟩ := h
  obtain ⟨t, text, u⟩ := w
  simp only at *
  cases hwritten with
  | symbol s =>
    have hspelling : ';' ∉ s.spelling.toList ∧ '?' ∉ s.spelling.toList := by
      cases s <;> decide
    simpa [Word.pieces] using hspelling
  | _ => simp [Word.pieces]

/-! ## Parentheses -/

/-- How many parentheses a token opens. -/
def Token.opens (t : Token) : Nat :=
  if t = .symbol .openParen then 1 else 0

/-- How many parentheses a token closes. -/
def Token.closes (t : Token) : Nat :=
  if t = .symbol .closeParen then 1 else 0

/-- A word takes the depth of parentheses where its token does. -/
theorem Word.Legible.parens_marks {w : Word} (h : w.Legible) {n m : Nat}
    (hm : n + w.token.opens = m + w.token.closes) (os : List Char) :
    parens n (marks w.pieces ++ os) = parens m os := by
  obtain ⟨hwritten, -, -⟩ := h
  obtain ⟨t, text, u⟩ := w
  simp only at *
  cases hwritten with
  | symbol s =>
    have hmarks : marks (Word.pieces ⟨.symbol s, s.spelling.toList, u⟩) = s.spelling.toList := by
      simp [Word.pieces, marks, List.filterMap_map]
    rw [hmarks]
    cases s with
    | openParen =>
      obtain rfl : m = n + 1 := hm.symm
      rfl
    | closeParen =>
      obtain rfl : n = m + 1 := hm
      rfl
    | _ =>
      obtain rfl : n = m := hm
      rfl
  | _ =>
    obtain rfl : n = m := hm
    rfl

/-- The constructs that have a parenthesis open. -/
def Frame.isParenthesized : Frame → Bool
  | .list | .arguments | .group => true
  | _ => false

/-- The parentheses that have just been opened and have no frame yet. -/
def Mode.depth : Mode → Nat
  | .argumentList | .callEnd | .inItems => 1
  | _ => 0

/-- **The parentheses that are open** in a state of the automaton. -/
def depth (m : Mode) (F : List Frame) : Nat :=
  m.depth + F.countP Frame.isParenthesized

section Depth

variable {F F' : List Frame} {next : Option Token} {m m' : Mode} {t : Token} {u : Bool}

theorem opens_eq_zero_of_isLikeWord (h : isLikeWord t) : t.opens = 0 ∧ t.closes = 0 := by
  constructor <;> refine if_neg ?_ <;> rintro rfl <;> cases h

theorem Starts.depth_eq {b : Bool} (h : Starts F next b t u m' F') :
    F.countP Frame.isParenthesized + t.opens = depth m' F' + t.closes := by
  cases h with
  | literal h | sign h =>
    have hopen : t ≠ .symbol .openParen := by rintro rfl; cases h
    have hclose : t ≠ .symbol .closeParen := by rintro rfl; cases h
    simp [depth, Mode.depth, Token.opens, Token.closes, hopen, hclose]
  | function h =>
    obtain ⟨hopens, hcloses⟩ := opens_eq_zero_of_isLikeWord h
    simp [depth, Mode.depth, hopens, hcloses]
  | name | case_ | group | not =>
    simp [depth, Mode.depth, Frame.isParenthesized, List.countP_cons, Token.opens, Token.closes]

theorem Operates.opens_eq_zero {op : Operator} (h : Operates next t op) :
    t.opens = 0 ∧ t.closes = 0 := by
  constructor <;> refine if_neg ?_ <;> rintro rfl <;>
    cases h with | binary h | like h => cases h

theorem Operator.depth_enter (op : Operator) (F : List Frame) :
    depth (op.enter F).1 (op.enter F).2 = F.countP Frame.isParenthesized := by
  cases op <;> simp [Operator.enter, depth, Mode.depth, Frame.isParenthesized]

theorem Takes.depth_eq {G : List Frame} (h : Takes next G t m' F') :
    G.countP Frame.isParenthesized + t.opens = depth m' F' + t.closes := by
  cases h with
  | operator hop =>
    obtain ⟨hopens, hcloses⟩ := hop.opens_eq_zero
    rw [Operator.depth_enter, hopens, hcloses]
  | _ =>
    simp [depth, Mode.depth, Frame.isParenthesized, List.countP_cons, Token.opens, Token.closes]

/-- Frames that need not be closed have no parenthesis open. -/
theorem countP_eq_zero_of_isLoose {X : List Frame} (h : ∀ f ∈ X, f.isLoose) :
    X.countP Frame.isParenthesized = 0 := by
  rw [List.countP_eq_zero]
  intro f hf
  have hloose := h f hf
  cases f <;> first | exact Bool.false_ne_true | cases hloose

theorem Mode.depth_of_isComplete (h : m.isComplete) : m.depth = 0 := by
  cases m <;> first | rfl | cases h

/-- **A move changes the depth** by the parenthesis that it reads. -/
theorem Move.depth_eq (h : Move F next m t u m' F') :
    depth m F + t.opens = depth m' F' + t.closes := by
  cases h with
  | operand h | signed h | isOperand _ h | argument h | subject h | item h =>
    have heq := h.depth_eq
    simp only [depth, Mode.depth, Frame.isParenthesized, List.countP_cons] at heq ⊢
    simpa [Nat.add_comm, Nat.add_left_comm] using heq
  | collation h =>
    cases t with
    | symbol => cases h
    | _ => rfl
  | notLike h =>
    obtain ⟨hopens, hcloses⟩ := opens_eq_zero_of_isLikeWord h
    simp [depth, Mode.depth, Frame.isParenthesized, hopens, hcloses]
  | resume hm hF hX hG =>
    have heq := hG.depth_eq
    have hloose := countP_eq_zero_of_isLoose fun f hf => isLoose_of_passes (hX f hf)
    rw [depth, hF, List.countP_append, hloose, Mode.depth_of_isComplete hm]
    omega
  | _ =>
    simp [depth, Mode.depth, Frame.isParenthesized, List.countP_cons, Token.opens, Token.closes,
      Nat.add_comm]

theorem Reads.parens_marks {f : Fragment} (h : Reads next m F f m' F')
    (hf : ∀ w ∈ f, w.Legible) : parens (depth m F) (marks f.pieces) = some (depth m' F') := by
  induction h with
  | done => rfl
  | word hmove _ ih =>
    obtain ⟨hw, hws⟩ := List.forall_mem_cons.mp hf
    rw [Fragment.pieces, List.flatMap_cons, Sql.marks_append,
      hw.parens_marks hmove.depth_eq]
    exact ih hws

end Depth

/-! ## Fragments -/

/-- The parentheses of an expression belong together. -/
theorem Fragment.IsExpression.balanced {f : Fragment} (h : f.IsExpression)
    (hf : ∀ w ∈ f, w.Legible) : parens 0 (marks f.pieces) = some 0 := by
  obtain ⟨m, F, hreads, hm, hF⟩ := h
  have hend : depth m F = 0 := by
    rw [depth, Mode.depth_of_isComplete hm, countP_eq_zero_of_isLoose hF]
  have hparens := hreads.parens_marks hf
  rwa [hend] at hparens

theorem Fragment.Legible.clause?_eq_none {f : Fragment} (h : f.Legible) :
    ∀ p ∈ f.pieces, p.clause? = none := by
  intro p hp
  obtain ⟨w, hw, hp⟩ := List.mem_flatMap.mp hp
  exact (h.words w hw).clause?_eq_none p hp

theorem Fragment.Legible.mark_not_mem {f : Fragment} (h : f.Legible) :
    .mark ';' ∉ f.pieces ∧ .mark '?' ∉ f.pieces := by
  constructor <;> intro hp <;> obtain ⟨w, hw, hp⟩ := List.mem_flatMap.mp hp
  · exact (h.words w hw).mark_not_mem.1 hp
  · exact (h.words w hw).mark_not_mem.2 hp

namespace Layout

variable {f : Fragment} {ls : List Lexeme}

theorem OrderTerm.balanced (h : OrderTerm f ls) (hls : AllWritten ls) :
    parens 0 (marks f.pieces) = some 0 := by
  cases h with
  | plain h => exact h.1.balanced (h.legible hls).words
  | @directed f ls l h hl =>
    have hexpr := h.1.balanced (h.legible (List.forall_mem_append.mp hls).1).words
    have hlast : marks (Word.pieces ⟨l.token, l.text, false⟩) = [] := by
      rcases hl with hl | hl <;> rw [Word.pieces, hl] <;> rfl
    rw [Fragment.pieces, List.flatMap_append, Sql.marks_append, List.flatMap_singleton, hlast,
      List.append_nil]
    exact hexpr

/-- **A fragment is closed** as a text of SQL. -/
theorem OrderTerm.closed (h : OrderTerm f ls) (hls : AllWritten ls) :
    Closed f.text.toList f.pieces := by
  have hlegible := h.legible hls
  have htext : f.text.toList = f.chars := String.toList_ofList
  rw [htext]
  exact ⟨hlegible.pieces, h.balanced hls, hlegible.clause?_eq_none⟩

theorem OrderTerm.harmless (h : OrderTerm f ls) (hls : AllWritten ls) : Sql.Harmless f.text := by
  have hclosed := h.closed hls
  obtain ⟨hend, hparameter⟩ := (h.legible hls).mark_not_mem
  exact hclosed.pieces.harmless hclosed.balanced hend hparameter

/-- The tokens of a fragment's text are those of its words. -/
theorem OrderTerm.tokenize_text (h : OrderTerm f ls) (hls : AllWritten ls) :
    ∃ again, tokenize f.text = .ok again ∧ ∀ l ∈ again, ¬ l.token.isOuter := by
  have hlegible := h.legible hls
  obtain ⟨again, hagain, hspelling⟩ := hlegible.tokenize_text
  refine ⟨again, hagain, fun l hl => ?_⟩
  have hmem := List.mem_map_of_mem (f := Lexeme.spelling) hl
  rw [hspelling] at hmem
  obtain ⟨w, hw, heq⟩ := List.mem_map.mp hmem
  have htoken : l.token = w.token := (Prod.mk.inj heq).1.symm
  rw [htoken]
  exact (hlegible.words w hw).inner

end Layout

end TreeQuery.Query
