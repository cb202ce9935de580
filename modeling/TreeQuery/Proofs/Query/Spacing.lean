import TreeQuery.Proofs.Query.Gaps

/-!
# The space between lexemes

A statement is a list of lexemes, and how they are set apart does not matter. `SpacedOut ts cs`
says that the characters are the texts `ts` in their order with gaps before, between and after
them; between two of them there is at least one character. A gap ends every token
(`Lexes.append_gap`), so the texts of the lexemes of a text are cut the same way when they are
spaced out.

What is read of lexemes depends on their tokens and texts, and what is wrong with them on where
they start. `Alike` compares two readings: equal values, or the same thing wrong at the same lexeme.

**`ofText_spacedOut`**: the lexemes of a text, spaced out, are the lexemes of the new text, and
both texts are the same statement or fail alike.
-/

namespace TreeQuery.Query

/-! ## Texts with gaps between them -/

/-- **The texts in their order**, with gaps before, between and after them. -/
inductive SpacedOut : List (List Char) → List Char → Prop where
  | nil : SpacedOut [] []
  | gap {c ts cs} : Text.isGap c → SpacedOut ts cs → SpacedOut ts (c :: cs)
  /-- The last text needs no gap after it. -/
  | last {t} : SpacedOut [t] t
  | text {t ts c cs} : Text.isGap c → SpacedOut ts cs → SpacedOut (t :: ts) (t ++ c :: cs)

/-- Written tokens that are spaced out are cut as they are written. -/
theorem SpacedOut.lexes {ts : List (List Char)} {cs : List Char} (h : SpacedOut ts cs) :
    ∀ {ws : List Spelling}, (∀ w ∈ ws, w.1.Written w.2) → ws.map Prod.snd = ts →
      Lexes cs ws := by
  induction h with
  | nil =>
    intro ws _ hws
    obtain rfl := List.map_eq_nil_iff.mp hws
    exact .nil
  | gap hc _ ih => exact fun hwritten hws => .gap hc (ih hwritten hws)
  | @last t =>
    intro ws hwritten hws
    obtain ⟨w, ws, rfl, rfl, htail⟩ := List.map_eq_cons_iff.mp hws
    obtain rfl := List.map_eq_nil_iff.mp htail
    exact .single (hwritten w List.mem_cons_self)
  | @text t ts c cs hc _ ih =>
    intro ws hwritten hws
    obtain ⟨w, ws, rfl, rfl, rfl⟩ := List.map_eq_cons_iff.mp hws
    obtain ⟨hw, hrest⟩ := List.forall_mem_cons.mp hwritten
    exact (Lexes.single hw).append_gap hc (ih hrest rfl)

/-! ## Readings that differ in places alone -/

/-- **Two readings of lexemes are alike**: they give the same value, or the same is wrong with the
lexeme of the same number. -/
inductive Alike {α : Type} (ls ms : List Lexeme) :
    Except SyntaxError α → Except SyntaxError α → Prop where
  | ok {a} : Alike ls ms (.ok a) (.ok a)
  | empty : Alike ls ms (.error .empty) (.error .empty)
  | incomplete {e} : Alike ls ms (.error (.incomplete e)) (.error (.incomplete e))
  | unexpected {e} {i : Nat} {l m : Lexeme} : ls[i]? = some l → ms[i]? = some m →
      Alike ls ms (.error (.unexpected e l.start)) (.error (.unexpected e m.start))

namespace Alike

variable {α β : Type} {ls ms : List Lexeme} {r r' : Except SyntaxError α}

theorem cons (h : Alike ls ms r r') (l m : Lexeme) : Alike (l :: ls) (m :: ms) r r' := by
  cases h with
  | unexpected hl hm => exact .unexpected (i := _ + 1) hl hm
  | _ => constructor

theorem map (h : Alike ls ms r r') (f : α → β) : Alike ls ms (r.map f) (r'.map f) := by
  cases h with
  | unexpected hl hm => exact .unexpected hl hm
  | _ => constructor

theorem eq_ok {a : α} (h : Alike ls ms r r') (hr : r = .ok a) : r' = .ok a := by
  cases h with
  | ok => exact hr
  | _ => cases hr

end Alike

theorem readFrom_alike {p : Place} {d : Draft} {ls ms : List Lexeme}
    (h : ls.map Lexeme.spelling = ms.map Lexeme.spelling) :
    Alike ls ms (readFrom p d ls) (readFrom p d ms) := by
  induction ls generalizing ms p d with
  | nil =>
    obtain rfl := List.map_eq_nil_iff.mp h.symm
    rw [readFrom]
    split <;> constructor
  | cons l ls ih =>
    obtain ⟨m, ms, rfl, hm, hms⟩ := List.map_eq_cons_iff.mp h.symm
    obtain ⟨htoken, htext⟩ := Prod.mk.inj hm
    have hnext : ls.head?.map Lexeme.token = ms.head?.map Lexeme.token := by
      have hheads := congrArg (fun ws => ws.head?.map Prod.fst) hms.symm
      simpa [List.head?_map, Function.comp_def, Lexeme.spelling] using hheads
    rw [readFrom, readFrom, ← hnext, htoken]
    cases hstep : p.step l.token (ls.head?.map Lexeme.token) with
    | error e => exact .unexpected (i := 0) rfl rfl
    | ok st =>
      have hact : (d.close st.ended).act m st.action = (d.close st.ended).act l st.action := by
        cases st.action <;> simp [Draft.act, htoken, htext]
      simp only [hact]
      exact (ih hms.symm).cons l m

theorem ofLexemes_alike {ls ms : List Lexeme}
    (h : ls.map Lexeme.spelling = ms.map Lexeme.spelling) :
    Alike ls ms (Statement.ofLexemes ls) (Statement.ofLexemes ms) := by
  cases ls with
  | nil =>
    obtain rfl := List.map_eq_nil_iff.mp h.symm
    exact .empty
  | cons l ls =>
    obtain ⟨m, ms, rfl, -, -⟩ := List.map_eq_cons_iff.mp h.symm
    exact readFrom_alike h

/-- The statement that a text is, once its lexemes are known. -/
theorem ofText_of_tokenize {text : String} {ls : List Lexeme} (h : tokenize text = .ok ls) :
    Statement.ofText text = (Statement.ofLexemes ls).map (Statement.map Fragment.text) := by
  rw [Statement.ofText, Statement.outline, h]
  rfl

/-- **How lexemes are set apart does not matter.** -/
theorem ofText_spacedOut {text spaced : String} {ls : List Lexeme} (h : tokenize text = .ok ls)
    (hspaced : SpacedOut (ls.map Lexeme.text) spaced.toList) :
    ∃ ms, tokenize spaced = .ok ms ∧ ms.map Lexeme.spelling = ls.map Lexeme.spelling ∧
      Alike ls ms (Statement.ofText text) (Statement.ofText spaced) := by
  have hlexes : Lexes text.toList (ls.map Lexeme.spelling) := exists_tokenize_iff.mp ⟨ls, h, rfl⟩
  have htexts : (ls.map Lexeme.spelling).map Prod.snd = ls.map Lexeme.text := by
    rw [List.map_map]
    rfl
  obtain ⟨ms, hms, hspelling⟩ := exists_tokenize_iff.mpr (hspaced.lexes hlexes.written htexts)
  refine ⟨ms, hms, hspelling, ?_⟩
  rw [ofText_of_tokenize h, ofText_of_tokenize hms]
  exact (ofLexemes_alike hspelling.symm).map _

/-- Lexemes without a gap between them, where FROM comes too early. -/
theorem ofText_spacedOut_adjacent :
    Statement.ofText "select a<-from'b'" = .error (.unexpected .expression 10) ∧
      Statement.ofText " select\ta <\n- from'b'" = .error (.unexpected .expression 14) ∧
      ∃ ls ms, tokenize "select a<-from'b'" = .ok ls ∧
        SpacedOut (ls.map Lexeme.text) " select\ta <\n- from'b'".toList ∧
        tokenize " select\ta <\n- from'b'" = .ok ms ∧
        ms.map Lexeme.spelling = ls.map Lexeme.spelling ∧
        Alike ls ms (Statement.ofText "select a<-from'b'")
          (Statement.ofText " select\ta <\n- from'b'") := by
  have hread : tokenize "select a<-from'b'" =
      .ok [⟨.keyword .select, 0, "select".toList⟩, ⟨.ident, 7, ['a']⟩, ⟨.symbol .lt, 8, ['<']⟩,
        ⟨.symbol .minus, 9, ['-']⟩, ⟨.source "b", 10, "from'b'".toList⟩] := by
    decide +kernel
  have hspaced : SpacedOut ["select".toList, ['a'], ['<'], ['-'], "from'b'".toList]
      " select\ta <\n- from'b'".toList :=
    .gap rfl (.text (t := "select".toList) rfl (.text (t := ['a']) rfl (.text (t := ['<']) rfl
      (.text (t := ['-']) rfl .last))))
  obtain ⟨ms, hms, hspelling, halike⟩ := ofText_spacedOut hread hspaced
  exact ⟨by decide +kernel, by decide +kernel, _, ms, hread, hspaced, hms, hspelling, halike⟩

end TreeQuery.Query
