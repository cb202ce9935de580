import Mathlib.Data.List.Forall2
import TreeQuery.Proofs.Query.FragmentText
import TreeQuery.Proofs.Query.Recasing
import TreeQuery.Proofs.Query.Spacing

/-!
# Statements in another case

A statement is read of the tokens of its text, and recased texts have the same tokens. So both are
statements or neither is: `readFrom_recased` goes through the two readings side by side, with drafts
whose words are recased. What a fragment says is composed of its words, and the text that comes out
is cut into them again (`Fragment.Legible.tokenize_text`), so it is recased as a text.

An alias is the name of a lexeme, without its quotes. That of a quoted lexeme is the same in both
statements, and to say so takes the lexemes: `aliasesFrom` finds those that are read as aliases, and
`aliases_readFrom` is that a statement has their names.

**`ofText_recased`**: recased texts are the same statement in another case, or the same is wrong
with both.
-/

namespace TreeQuery.Query

/-! ## Recased statements -/

/-- The same text up to the case of letters. -/
def SameLetters (s s' : String) : Prop :=
  s'.toList.map Char.toLower = s.toList.map Char.toLower

/-- The same word of a fragment, with its text recased. -/
structure Word.Recased (w w' : Word) : Prop where
  token : w'.token = w.token
  unary : w'.unary = w.unary
  text : w.token.Recases w.text w'.text

section

variable {α : Type}

/-- The same kind of column, its pieces related and its aliases the same up to case. -/
inductive Column.Recased (R : α → α → Prop) : Column α → Column α → Prop where
  | wildcard : Column.Recased R .wildcard .wildcard
  | expr {f f' a? a?'} : R f f' → Option.Rel SameLetters a? a?' →
      Column.Recased R (.expr f a?) (.expr f' a?')

/-- **Statements that have the same clauses**, all their pieces related. -/
structure Statement.Recased (R : α → α → Prop) (s s' : Statement α) : Prop where
  path : s'.path = s.path
  distinct : s'.distinct = s.distinct
  columns : List.Forall₂ (Column.Recased R) s.columns s'.columns
  predicate : Option.Rel R s.predicate s'.predicate
  groupBy : List.Forall₂ R s.groupBy s'.groupBy
  having : Option.Rel R s.having s'.having
  orderBy : List.Forall₂ R s.orderBy s'.orderBy
  limit : Option.Rel R s.limit s'.limit
  offset : Option.Rel R s.offset s'.offset

/-- The alias of a column. -/
def Column.alias? : Column α → Option String
  | wildcard => none
  | expr _ alias? => alias?

/-- The aliases of a statement, in the order of its columns. -/
def Statement.aliases (s : Statement α) : List String := s.columns.filterMap Column.alias?

/-- Two readings that give related values or the same error. -/
inductive Agree (R : α → α → Prop) : Except SyntaxError α → Except SyntaxError α → Prop where
  | ok {a b} : R a b → Agree R (.ok a) (.ok b)
  | error {e} : Agree R (.error e) (.error e)

/-- The lexemes that a reading takes as aliases. -/
def aliasesFrom (place : Place) : List Lexeme → List Lexeme
  | [] => []
  | l :: rest =>
    match place.step l.token (rest.head?.map Lexeme.token) with
    | .ok s =>
      if s.action = .alias then l :: aliasesFrom s.place rest else aliasesFrom s.place rest
    | .error _ => []

end

/-! ## Readings side by side -/

section

variable {p : Place} {d d' : Draft} {s s' : Statement Fragment} {f f' : Fragment}
  {l l' : Lexeme} {ls ls' : List Lexeme}

/-- Fragments whose words are recased. -/
abbrev Fragment.Recased : Fragment → Fragment → Prop := List.Forall₂ Word.Recased

/-- Drafts of statements whose words are recased. -/
structure Draft.Recased (d d' : Draft) : Prop where
  statement : d.statement.Recased Fragment.Recased d'.statement
  words : d.words.Recased d'.words

theorem Statement.Recased.put (h : s.Recased Fragment.Recased s') (hf : f.Recased f')
    (slot : Slot) : (s.put f slot).Recased Fragment.Recased (s'.put f' slot) := by
  cases slot with
  | column => exact { h with columns := List.rel_append h.columns (.cons (.expr hf .none) .nil) }
  | predicate => exact { h with predicate := .some hf }
  | groupTerm => exact { h with groupBy := List.rel_append h.groupBy (.cons hf .nil) }
  | having => exact { h with having := .some hf }
  | orderTerm => exact { h with orderBy := List.rel_append h.orderBy (.cons hf .nil) }
  | limit => exact { h with limit := .some hf }
  | offset => exact { h with offset := .some hf }

/-- Lists with something behind them are related if they are and the last things are. -/
theorem forall₂_concat_iff {α β : Type} {R : α → β → Prop} {xs : List α} {ys : List β} {x : α}
    {y : β} : List.Forall₂ R (xs ++ [x]) (ys ++ [y]) ↔ List.Forall₂ R xs ys ∧ R x y := by
  rw [← List.forall₂_reverse_iff, List.reverse_append, List.reverse_append, List.reverse_singleton,
    List.reverse_singleton, List.singleton_append, List.singleton_append, List.forall₂_cons,
    List.forall₂_reverse_iff, and_comm]

/-- The alias goes to the expression that comes last. -/
theorem Statement.aliasLast_concat {cs : List (Column Fragment)} {a? : Option String}
    (h : s.columns = cs ++ [.expr f a?]) (a : String) :
    s.aliasLast a = { s with columns := cs ++ [.expr f (some a)] } := by
  simp [Statement.aliasLast, h]

theorem Statement.Recased.aliasLast {a a' : String} (h : s.Recased Fragment.Recased s')
    (ha : SameLetters a a') :
    (s.aliasLast a).Recased Fragment.Recased (s'.aliasLast a') := by
  have hcolumns := h.columns
  rcases List.eq_nil_or_concat' s.columns with hnil | ⟨cs, c, hcs⟩
  · rw [hnil, List.forall₂_nil_left_iff] at hcolumns
    have hkeep : s.aliasLast a = s := by simp [Statement.aliasLast, hnil]
    have hkeep' : s'.aliasLast a' = s' := by simp [Statement.aliasLast, hcolumns]
    rwa [hkeep, hkeep']
  · rcases List.eq_nil_or_concat' s'.columns with hnil' | ⟨cs', c', hcs'⟩
    · rw [hnil', List.forall₂_nil_right_iff, hcs] at hcolumns
      simp at hcolumns
    · rw [hcs, hcs', forall₂_concat_iff] at hcolumns
      obtain ⟨hfront, hlast⟩ := hcolumns
      cases hlast with
      | wildcard =>
        have hkeep : s.aliasLast a = s := by simp [Statement.aliasLast, hcs]
        have hkeep' : s'.aliasLast a' = s' := by simp [Statement.aliasLast, hcs']
        rwa [hkeep, hkeep']
      | expr hf =>
        rw [Statement.aliasLast_concat hcs, Statement.aliasLast_concat hcs']
        exact { h with columns := forall₂_concat_iff.mpr ⟨hfront, .expr hf (.some ha)⟩ }

/-- Names are the same up to case where the texts are. -/
theorem nameOf_sameLetters (h : l.Recased l') :
    SameLetters (Layout.nameOf l) (Layout.nameOf l') := by
  rw [SameLetters, Layout.nameOf, Layout.nameOf, String.toList_ofList, String.toList_ofList,
    ← unquote_toLower, ← unquote_toLower, h.text.letters]

/-- Nothing has been read yet. -/
theorem Draft.Recased.empty : Draft.Recased {} {} :=
  ⟨⟨rfl, rfl, .nil, .none, .nil, .none, .nil, .none, .none⟩, .nil⟩

theorem Draft.Recased.close (h : d.Recased d') (slot? : Option Slot) :
    (d.close slot?).Recased (d'.close slot?) := by
  cases slot? with
  | none => exact h
  | some slot => exact ⟨h.statement.put h.words slot, .nil⟩

theorem Draft.Recased.act (h : d.Recased d') (hl : l.Recased l') (a : Action) :
    (d.act l a).Recased (d'.act l' a) := by
  cases a with
  | skip => exact h
  | word unary =>
    exact ⟨h.statement, List.rel_append h.words (.cons ⟨hl.token, rfl, hl.text⟩ .nil)⟩
  | distinct => exact ⟨{ h.statement with distinct := rfl }, h.words⟩
  | wildcard =>
    have hcolumns := List.rel_append h.statement.columns (.cons .wildcard .nil)
    exact ⟨{ h.statement with columns := hcolumns }, h.words⟩
  | «alias» => exact ⟨h.statement.aliasLast (nameOf_sameLetters hl), h.words⟩
  | source path => exact ⟨{ h.statement with path := rfl }, h.words⟩

/-- The token that comes next is the same. -/
theorem head?_recased (h : List.Forall₂ Lexeme.Recased ls ls') :
    ls'.head?.map Lexeme.token = ls.head?.map Lexeme.token := by
  cases h with
  | nil => rfl
  | cons hl _ => exact congrArg some hl.token

/-- Both readings take the same steps: a step looks at tokens alone, and what it does with a lexeme
keeps the drafts recased. -/
theorem readFrom_recased (hls : List.Forall₂ Lexeme.Recased ls ls') (hd : d.Recased d') :
    Agree (Statement.Recased Fragment.Recased) (readFrom p d ls) (readFrom p d' ls') := by
  induction hls generalizing p d d' with
  | nil =>
    rw [readFrom, readFrom]
    split
    · exact .ok (hd.close _).statement
    · exact .error
  | @cons l l' ls ls' hl hls ih =>
    rw [readFrom, readFrom, head?_recased hls, hl.token, hl.start]
    split
    · exact ih ((hd.close _).act hl _)
    · exact .error

/-- **Recased lexemes are recased statements**, or fail alike. -/
theorem ofLexemes_recased (h : List.Forall₂ Lexeme.Recased ls ls') :
    Agree (Statement.Recased Fragment.Recased) (Statement.ofLexemes ls)
      (Statement.ofLexemes ls') := by
  cases h with
  | nil => exact .error
  | cons hl hls => exact readFrom_recased (.cons hl hls) .empty

/-! ## The lexemes of aliases -/

theorem Statement.aliases_put (s : Statement Fragment) (f : Fragment) (slot : Slot) :
    (s.put f slot).aliases = s.aliases := by
  cases slot <;> simp [Statement.put, Statement.aliases, Column.alias?]

theorem Draft.aliases_close (d : Draft) (slot? : Option Slot) :
    (d.close slot?).statement.aliases = d.statement.aliases := by
  cases slot? with
  | none => rfl
  | some slot => exact d.statement.aliases_put d.words slot

/-- The last column of a statement has no alias yet. -/
def Statement.EndsUnnamed (s : Statement Fragment) : Prop :=
  ∃ cs f, s.columns = cs ++ [.expr f none]

theorem Draft.endsUnnamed_close (d : Draft) :
    (d.close (some .column)).statement.EndsUnnamed :=
  ⟨d.statement.columns, d.words, rfl⟩

theorem Statement.EndsUnnamed.aliases_aliasLast (h : s.EndsUnnamed) (a : String) :
    (s.aliasLast a).aliases = s.aliases ++ [a] := by
  obtain ⟨cs, f, hcs⟩ := h
  rw [Statement.aliasLast_concat hcs]
  simp [Statement.aliases, hcs, Column.alias?]

theorem Draft.aliases_act {a : Action} (ha : a ≠ .alias) (d : Draft) (l : Lexeme) :
    (d.act l a).statement.aliases = d.statement.aliases := by
  cases a with
  | «alias» => exact absurd rfl ha
  | wildcard => simp [Draft.act, Statement.aliases, Column.alias?]
  | _ => rfl

/-- Where an alias is read or awaited, a column has just ended. -/
structure Step.NamesColumn (p : Place) (st : Step) : Prop where
  read : st.action = .alias → p = .alias ∧ st.ended = none ∨ st.ended = some .column
  awaited : st.place = .alias → st.ended = some .column ∧ st.action = .skip

theorem Step.NamesColumn.of_ne {st : Step} (haction : st.action ≠ .alias)
    (hplace : st.place ≠ .alias) : st.NamesColumn p :=
  ⟨fun h => absurd h haction, fun h => absurd h hplace⟩

theorem namesColumn_of_columnStep {t : Token} {next : Option Token} {st : Step}
    (h : columnStep t next = .ok st) : st.NamesColumn p := by
  rw [columnStep] at h
  split at h
  · obtain rfl := Except.ok.inj h
    exact .of_ne (by simp) (by simp)
  · obtain ⟨u, m, F, -, rfl⟩ := operandStep_iff.mp h
    exact .of_ne (by simp) (by simp)

theorem namesColumn_of_tailStep {k : Nat} {e : Option Slot} {t : Token} {st : Step}
    (h : tailStep k e t = .ok st) : st.NamesColumn p := by
  obtain ⟨c, -, -, rfl⟩ := tailStep_eq_ok_iff.mp h
  exact .of_ne (by simp) (by cases c <;> simp [Tail.place, Place.exprStart])

theorem namesColumn_of_endStep {c : Clause} {t : Token} {st : Step} (h : c.endStep t = .ok st) :
    st.NamesColumn p := by
  unfold Clause.endStep at h
  split at h
  all_goals first
    | exact namesColumn_of_tailStep h
    | (obtain rfl := Except.ok.inj h
       exact ⟨by simp, by simp [Place.exprStart]⟩)
    | cases h

theorem namesColumn_of_step {t : Token} {next : Option Token} {st : Step}
    (h : p.step t next = .ok st) : st.NamesColumn p := by
  cases p with
  | expr c m F =>
    rcases exprStep_cases h with ⟨u, m', F', -, rfl⟩ | ⟨-, -, hend⟩
    · exact .of_ne (by simp) (by simp)
    · exact namesColumn_of_endStep hend
  | column => exact namesColumn_of_columnStep h
  | sourceEnd => exact namesColumn_of_tailStep h
  | _ =>
    unfold Place.step at h
    dsimp only at h
    repeat' split at h
    all_goals first
      | exact namesColumn_of_columnStep h
      | exact namesColumn_of_tailStep h
      | (obtain rfl := Except.ok.inj h
         exact ⟨by simp, by simp [Place.exprStart]⟩)
      | cases h

/-- **The aliases of a statement are the names of the lexemes** that are read as aliases. -/
theorem aliases_readFrom (h : readFrom p d ls = .ok s)
    (hp : p = .alias → d.statement.EndsUnnamed) :
    s.aliases = d.statement.aliases ++ (aliasesFrom p ls).map Layout.nameOf := by
  induction ls generalizing p d with
  | nil =>
    rw [readFrom] at h
    split at h
    · obtain rfl := Except.ok.inj h
      rw [Draft.aliases_close, aliasesFrom, List.map_nil, List.append_nil]
    · cases h
  | cons l ls ih =>
    rw [readFrom] at h
    rw [aliasesFrom]
    cases hstep : p.step l.token (ls.head?.map Lexeme.token) with
    | error e =>
      simp only [hstep] at h
      cases h
    | ok st =>
      simp only [hstep] at h ⊢
      obtain ⟨hread, hawaited⟩ := namesColumn_of_step hstep
      by_cases ha : st.action = .alias
      · have hunnamed : (d.close st.ended).statement.EndsUnnamed := by
          rcases hread ha with ⟨hplace, hended⟩ | hended
          · rw [hended]
            exact hp hplace
          · rw [hended]
            exact d.endsUnnamed_close
        have hnamed : ((d.close st.ended).act l st.action).statement.aliases =
            d.statement.aliases ++ [Layout.nameOf l] := by
          rw [← d.aliases_close st.ended, ← hunnamed.aliases_aliasLast, ha]
          rfl
        rw [ih h fun hplace => absurd ((hawaited hplace).2.symm.trans ha) (by simp), hnamed,
          if_pos ha, List.map_cons, List.append_assoc, List.singleton_append]
      · have hunnamed (hplace : st.place = .alias) :
            ((d.close st.ended).act l st.action).statement.EndsUnnamed := by
          obtain ⟨hended, hskip⟩ := hawaited hplace
          rw [hended, hskip]
          exact d.endsUnnamed_close
        rw [ih h hunnamed, Draft.aliases_act ha, Draft.aliases_close, if_neg ha]

/-- The aliases of the statement that the lexemes of a text are. -/
theorem aliases_ofLexemes (h : Statement.ofLexemes ls = .ok s) :
    s.aliases = (aliasesFrom .start ls).map Layout.nameOf := by
  cases ls with
  | nil => cases h
  | cons l ls => exact aliases_readFrom (p := .start) (d := {}) h (fun hp => nomatch hp)

/-- The same lexemes are aliases in both readings. -/
theorem aliasesFrom_recased (h : List.Forall₂ Lexeme.Recased ls ls') :
    List.Forall₂ Lexeme.Recased (aliasesFrom p ls) (aliasesFrom p ls') := by
  induction h generalizing p with
  | nil => exact .nil
  | @cons l l' ls ls' hl hls ih =>
    rw [aliasesFrom, aliasesFrom, head?_recased hls, hl.token]
    split
    · split
      · exact .cons hl ih
      · exact ih
    · exact .nil

/-! ## The texts of fragments -/

/-- Whether a space is set between two words does not depend on case. -/
theorem spaced_recased {v v' w w' : Word} (hv : v.Recased v') (hw : w.Recased w') :
    Fragment.spaced v' w' = Fragment.spaced v w := by
  simp only [Fragment.spaced, Word.isSign, Word.isFunctionName, hv.token, hv.unary, hw.token,
    hw.unary]
  rfl

theorem charsAfter_letters {v v' : Word} (hv : v.Recased v') (h : f.Recased f') :
    (Fragment.charsAfter v' f').map Char.toLower = (Fragment.charsAfter v f).map Char.toLower := by
  induction h generalizing v v' with
  | nil => rfl
  | @cons w w' f f' hw _ ih =>
    simp only [Fragment.charsAfter, List.map_append, spaced_recased hv hw, hw.text.letters, ih hw]

theorem chars_letters (h : f.Recased f') :
    f'.chars.map Char.toLower = f.chars.map Char.toLower := by
  cases h with
  | nil => rfl
  | cons hw hf =>
    simp only [Fragment.chars, List.map_append, hw.text.letters, charsAfter_letters hw hf]

/-- **Fragments of recased words have recased texts.** -/
theorem Fragment.Recased.text (h : f.Recased f') (hf : f.Legible) (hf' : f'.Legible) :
    Query.Recased f.text f'.text := by
  obtain ⟨ms, hms, hspelling⟩ := hf.tokenize_text
  obtain ⟨ms', hms', hspelling'⟩ := hf'.tokenize_text
  refine recased_of_tokenize hms hms' ?_ ?_
  · rw [Fragment.text, Fragment.text, String.toList_ofList, String.toList_ofList, chars_letters h]
  · have hwords : List.Forall₂ (fun x x' : Spelling => x.1.Recases x.2 x'.2)
        (f.map Word.spelling) (f'.map Word.spelling) := by
      rw [List.forall₂_map_left_iff, List.forall₂_map_right_iff]
      exact h.imp fun _ _ hw => hw.text
    rwa [← hspelling, ← hspelling', List.forall₂_map_left_iff, List.forall₂_map_right_iff] at hwords

/-- Every piece that written lexemes spell is legible. -/
theorem Layout.legible (h : Layout s ls) (hls : AllWritten ls) : ∀ f ∈ s.pieces, f.Legible := by
  intro f hf
  obtain ⟨es, hes, hterm⟩ := h.contains f hf
  exact hterm.legible fun l hl => hls l (hes.subset hl)

end

section

variable {α β : Type} {R : α → α → Prop} {R' : β → β → Prop} {g : α → β}

theorem forall₂_map {xs ys : List α} (h : List.Forall₂ R xs ys)
    (hR : ∀ x ∈ xs, ∀ y ∈ ys, R x y → R' (g x) (g y)) :
    List.Forall₂ R' (xs.map g) (ys.map g) := by
  induction h with
  | nil => exact .nil
  | cons hxy _ ih =>
    refine .cons (hR _ List.mem_cons_self _ List.mem_cons_self hxy) (ih fun x hx y hy => ?_)
    exact hR x (List.mem_cons_of_mem _ hx) y (List.mem_cons_of_mem _ hy)

theorem rel_map {x? y? : Option α} (h : Option.Rel R x? y?)
    (hR : ∀ x ∈ x?, ∀ y ∈ y?, R x y → R' (g x) (g y)) : Option.Rel R' (x?.map g) (y?.map g) := by
  cases h with
  | none => exact .none
  | some h => exact .some (hR _ rfl _ rfl h)

theorem Statement.mem_pieces_iff {s : Statement α} {f : α} : f ∈ s.pieces ↔
    (∃ c ∈ s.columns, f ∈ c.pieces) ∨ f ∈ s.predicate ∨ f ∈ s.groupBy ∨ f ∈ s.having ∨
      f ∈ s.orderBy ∨ f ∈ s.limit ∨ f ∈ s.offset := by
  simp [Statement.pieces]

/-- Statements stay related when their pieces are changed alike. -/
theorem Statement.Recased.map {s s' : Statement α} (h : s.Recased R s')
    (hR : ∀ f ∈ s.pieces, ∀ f' ∈ s'.pieces, R f f' → R' (g f) (g f')) :
    (s.map g).Recased R' (s'.map g) := by
  simp only [Statement.mem_pieces_iff] at hR
  refine ⟨h.path, h.distinct, forall₂_map h.columns fun c hc c' hc' hcolumn => ?_,
    rel_map h.predicate fun f hf f' hf' => hR f (.inr (.inl hf)) f' (.inr (.inl hf')),
    forall₂_map h.groupBy fun f hf f' hf' =>
      hR f (.inr (.inr (.inl hf))) f' (.inr (.inr (.inl hf'))),
    rel_map h.having fun f hf f' hf' =>
      hR f (.inr (.inr (.inr (.inl hf)))) f' (.inr (.inr (.inr (.inl hf')))),
    forall₂_map h.orderBy fun f hf f' hf' =>
      hR f (.inr (.inr (.inr (.inr (.inl hf))))) f' (.inr (.inr (.inr (.inr (.inl hf'))))),
    rel_map h.limit fun f hf f' hf' => hR f (.inr (.inr (.inr (.inr (.inr (.inl hf))))))
      f' (.inr (.inr (.inr (.inr (.inr (.inl hf')))))),
    rel_map h.offset fun f hf f' hf' => hR f (.inr (.inr (.inr (.inr (.inr (.inr hf))))))
      f' (.inr (.inr (.inr (.inr (.inr (.inr hf'))))))⟩
  cases hcolumn with
  | wildcard => exact .wildcard
  | expr hf ha =>
    exact .expr (hR _ (.inl ⟨_, hc, List.mem_singleton_self _⟩) _
      (.inl ⟨_, hc', List.mem_singleton_self _⟩) hf) ha

end

/-! ## Texts in another case -/

theorem Statement.aliases_map {α β : Type} (g : α → β) (s : Statement α) :
    (s.map g).aliases = s.aliases := by
  have halias (c : Column α) : (c.map g).alias? = c.alias? := by cases c <;> rfl
  simp only [Statement.aliases, Statement.map, List.filterMap_map, Function.comp_def, halias]


/-- **The same statement in another case**: the same clauses with recased fragments, and aliases
that are the names of recased lexemes. -/
structure AnotherCase (ls ls' : List Lexeme) (s s' : Statement String) : Prop where
  clauses : s.Recased Recased s'
  aliases : s.aliases = (aliasesFrom .start ls).map Layout.nameOf
  aliases' : s'.aliases = (aliasesFrom .start ls').map Layout.nameOf
  names : List.Forall₂ Lexeme.Recased (aliasesFrom .start ls) (aliasesFrom .start ls')

/-- **Letter case matters between quotes and in targets alone**: recased texts have the same tokens
at the same bytes, and are the same statement in another case or fail with the same error. -/
theorem ofText_recased {text text' : String} (h : Recased text text') :
    ∃ ls ls', tokenize text = .ok ls ∧ tokenize text' = .ok ls' ∧
      List.Forall₂ Lexeme.Recased ls ls' ∧
      Agree (AnotherCase ls ls') (Statement.ofText text) (Statement.ofText text') := by
  obtain ⟨ls, hls, -⟩ := id h
  obtain ⟨ls', hls', hrecased⟩ := h.tokenize hls
  refine ⟨ls, ls', hls, hls', hrecased, ?_⟩
  rw [ofText_of_tokenize hls, ofText_of_tokenize hls']
  have hagree := ofLexemes_recased hrecased
  generalize hs : Statement.ofLexemes ls = r at hagree
  generalize hs' : Statement.ofLexemes ls' = r' at hagree
  cases hagree with
  | error => exact .error
  | @ok o o' ho =>
    have hlegible := (ofLexemes_eq_ok_iff.mp hs).legible (allWritten_of_tokenize hls)
    have hlegible' := (ofLexemes_eq_ok_iff.mp hs').legible (allWritten_of_tokenize hls')
    refine .ok ⟨ho.map fun f hf f' hf' hff => hff.text (hlegible f hf) (hlegible' f' hf'), ?_, ?_,
      aliasesFrom_recased hrecased⟩
    · rw [Statement.aliases_map, aliases_ofLexemes hs]
    · rw [Statement.aliases_map, aliases_ofLexemes hs']

/-- Words, an exponent and hex digits in another case, around quoted texts that are kept. -/
theorem ofText_recased_mixed :
    Recased "select 1e5 as \"A\" from 'X' where b=0XfF"
        "Select 1E5 AS \"A\" From 'X' WHERE B=0xFf" ∧
      ∃ ls ls', tokenize "select 1e5 as \"A\" from 'X' where b=0XfF" = .ok ls ∧
        tokenize "Select 1E5 AS \"A\" From 'X' WHERE B=0xFf" = .ok ls' ∧
        List.Forall₂ Lexeme.Recased ls ls' ∧
        Agree (AnotherCase ls ls')
          (Statement.ofText "select 1e5 as \"A\" from 'X' where b=0XfF")
          (Statement.ofText "Select 1E5 AS \"A\" From 'X' WHERE B=0xFf") := by
  have hread : tokenize "select 1e5 as \"A\" from 'X' where b=0XfF" =
      .ok [⟨.keyword .select, 0, "select".toList⟩, ⟨.number, 7, "1e5".toList⟩,
        ⟨.keyword .as_, 11, "as".toList⟩, ⟨.doubleQuoted, 14, "\"A\"".toList⟩,
        ⟨.source "X", 18, "from 'X'".toList⟩, ⟨.keyword .where_, 27, "where".toList⟩,
        ⟨.ident, 33, ['b']⟩, ⟨.symbol .eq, 34, ['=']⟩, ⟨.number, 35, "0XfF".toList⟩] := by
    decide +kernel
  have hread' : tokenize "Select 1E5 AS \"A\" From 'X' WHERE B=0xFf" =
      .ok [⟨.keyword .select, 0, "Select".toList⟩, ⟨.number, 7, "1E5".toList⟩,
        ⟨.keyword .as_, 11, "AS".toList⟩, ⟨.doubleQuoted, 14, "\"A\"".toList⟩,
        ⟨.source "X", 18, "From 'X'".toList⟩, ⟨.keyword .where_, 27, "WHERE".toList⟩,
        ⟨.ident, 33, ['B']⟩, ⟨.symbol .eq, 34, ['=']⟩, ⟨.number, 35, "0xFf".toList⟩] := by
    decide +kernel
  have hfree {t : Token} {w w' : List Char} (ht : t.keptAfter? = none)
      (h : w'.map Char.toLower = w.map Char.toLower) : t.Recases w w' := ⟨h, by simp [ht]⟩
  have hrecased : Recased "select 1e5 as \"A\" from 'X' where b=0XfF"
      "Select 1E5 AS \"A\" From 'X' WHERE B=0xFf" := by
    refine recased_of_tokenize hread hread' (by decide) ?_
    refine .cons (hfree rfl (by decide)) (.cons (hfree rfl (by decide))
      (.cons (hfree rfl (by decide)) (.cons ⟨rfl, fun _ _ => rfl⟩ (.cons ⟨by decide, ?_⟩
      (.cons (hfree rfl (by decide)) (.cons (hfree rfl (by decide))
      (.cons (hfree rfl (by decide)) (.cons (hfree rfl (by decide)) .nil))))))))
    decide +kernel
  exact ⟨hrecased, ofText_recased hrecased⟩

end TreeQuery.Query
