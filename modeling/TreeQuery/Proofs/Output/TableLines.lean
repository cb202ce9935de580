import TreeQuery.Output.Format

/-!
# Tables that read back

A reader of a table sees lines, and in each line the cells that tabs set apart. `tableCells` is
this reader. What it sees is what was written unless a text has a tab or a line feed in it, and
then it sees something else: `Fits` says that a text has neither. Whatever else is in a cell is
shown in characters that never set anything apart (`fits_display_iff`).

**`render_table_framed_iff`**: which results are read off their tables.
-/

namespace TreeQuery

variable {cs ds : List Char} {sep c : Char} {point : Bool} {n : Nat}

/-- No tab and no line feed is among the characters. -/
def Fits (cs : List Char) : Prop := ∀ d ∈ cs, d ≠ '\t' ∧ d ≠ '\n'

theorem fits_append : Fits (cs ++ ds) ↔ Fits cs ∧ Fits ds := List.forall_mem_append

theorem fits_cons : Fits (c :: cs) ↔ (c ≠ '\t' ∧ c ≠ '\n') ∧ Fits cs := List.forall_mem_cons

theorem Fits.sublist (h : Fits cs) (hds : ds.Sublist cs) : Fits ds := fun d hd =>
  h d (hds.subset hd)

theorem Fits.tab (h : Fits cs) : '\t' ∉ cs := fun hmem => (h _ hmem).1 rfl

theorem Fits.newline (h : Fits cs) : '\n' ∉ cs := fun hmem => (h _ hmem).2 rfl

theorem fits_iff : Fits cs ↔ '\t' ∉ cs ∧ '\n' ∉ cs :=
  ⟨fun h => ⟨h.tab, h.newline⟩, fun h _ hc =>
    ⟨fun heq => h.1 (heq ▸ hc), fun heq => h.2 (heq ▸ hc)⟩⟩

/-! ## Numbers -/

theorem fits_toDigits (n : Nat) : Fits (Nat.toDigits 10 n) := fun c hc => by
  have hdigit := Nat.isDigit_of_mem_toDigits (by decide) (by decide) hc
  exact ⟨fun h => absurd (h ▸ hdigit) (by decide), fun h => absurd (h ▸ hdigit) (by decide)⟩

theorem fits_toString (n : Int) : Fits (toString n).toList := by
  cases n with
  | ofNat n => exact (String.toList_ofList (l := Nat.toDigits 10 n)) ▸ fits_toDigits n
  | negSucc n =>
    have htext : (toString (Int.negSucc n)).toList = '-' :: Nat.toDigits 10 (n + 1) := by
      simp [toString, Int.repr, Nat.repr]
    rw [htext, fits_cons]
    exact ⟨by decide, fits_toDigits _⟩

namespace Decimal

theorem fits_zeros (n : Nat) : Fits (zeros n) := fun c hc => by
  rw [List.eq_of_mem_replicate hc]
  decide

theorem fits_point : Fits (if point then ['.', '0'] else []) := by
  cases point <;> simp [Fits]

theorem fits_significant (n : Nat) : Fits (significant n) := by
  unfold significant
  split
  · simp [Fits]
  · have hdropped := (List.dropWhile_sublist (· == '0') (l := (Nat.toDigits 10 n).reverse)).reverse
    rw [List.reverse_reverse] at hdropped
    exact (fits_toDigits n).sublist hdropped

theorem fits_plainText (h : Fits cs) (first : Int) : Fits (plainText point cs first) := by
  unfold plainText
  split
  · simp only [fits_append, fits_cons]
    exact ⟨⟨by decide, by decide, fits_zeros _⟩, h⟩
  · dsimp only
    split
    · simp only [fits_append, fits_cons]
      exact ⟨h.sublist (List.take_sublist _ _), by decide, h.sublist (List.drop_sublist _ _)⟩
    · simp only [fits_append]
      exact ⟨⟨h, fits_zeros _⟩, fits_point⟩

theorem fits_coefficientText (h : Fits cs) : Fits (coefficientText point cs) := by
  unfold coefficientText
  split
  · exact h
  · exact fits_cons.mpr ⟨(fits_cons.mp h).1, fits_point⟩
  · exact fits_cons.mpr ⟨(fits_cons.mp h).1, fits_cons.mpr ⟨by decide, (fits_cons.mp h).2⟩⟩

theorem fits_exponentText (width : Nat) (e : Int) : Fits (exponentText width e) := by
  simp only [exponentText, List.cons_append, fits_append, fits_cons]
  exact ⟨by decide, by split <;> decide, fits_zeros _, fits_toDigits _⟩

theorem Format.fits_unsigned (f : Format) (d : Decimal) : Fits (f.unsigned d) := by
  unfold Format.unsigned
  dsimp only
  split
  · exact fits_plainText (fits_significant _) _
  · exact fits_append.mpr ⟨fits_coefficientText (fits_significant _), fits_exponentText _ _⟩

/-- **A number never has a separator in it.** -/
theorem Format.fits_text {f : Format} (hnan : Fits f.nan.toList)
    (hinfinity : Fits f.infinity.toList) (x : Float) : Fits (f.text x).toList := by
  have hsign : ∀ sign : Bool, Fits (if sign then "-" else "").toList := by
    simp [Fits]
  unfold Format.text
  split
  · exact hnan
  · rw [String.toList_append]
    exact fits_append.mpr ⟨hsign _, hinfinity⟩
  · rw [String.toList_append, String.toList_ofList]
    exact fits_append.mpr ⟨hsign _, f.fits_unsigned _⟩

end Decimal

namespace Output

open Database

variable {s t : String} {ss : List String} {v : Value} {r : Rows}

/-- **Only texts can have separators in them.** -/
theorem fits_display_iff : Fits v.display.toList ↔ ∀ s, v = .text s → Fits s.toList := by
  cases v with
  | null => simp [Value.display, Fits]
  | integer n =>
    have hinteger : Fits (toString n).toList := fits_toString n.toInt
    simpa [Value.display] using hinteger
  | real x =>
    simpa [Value.display] using
      Decimal.Format.fits_text (f := realDisplay) (by simp [realDisplay, Fits])
        (by simp [realDisplay, Fits]) x
  | text s => simp [Value.display]
  | blob bytes =>
    have hcount : Fits (toString bytes.length).toList := fits_toString bytes.length
    have hends : Fits "<".toList ∧ Fits " bytes>".toList := by simp [Fits]
    have hdisplay : (Value.blob bytes).display = "<" ++ toString bytes.length ++ " bytes>" := rfl
    rw [hdisplay, String.toList_append, String.toList_append, fits_append, fits_append]
    exact iff_of_true ⟨⟨hends.1, hcount⟩, hends.2⟩ fun _ h => nomatch h

/-! ## Reading a table -/

/-- The pieces of a text between separators. -/
def pieces (sep : Char) (s : String) : List String := (s.toList.splitOn sep).map String.ofList

/-- The cells of a table, line by line, as a reader sees them. -/
def tableCells (s : String) : List (List String) := (pieces '\n' s).map (pieces '\t')

/-- What separates texts is put back by joining them, unless it is in one of them. -/
theorem pieces_intercalate (ht : t.toList = [sep]) (hne : ss ≠ [])
    (h : ∀ s ∈ ss, sep ∉ s.toList) : pieces sep (t.intercalate ss) = ss := by
  rw [pieces, String.toList_intercalate, ht, List.splitOn_intercalate]
  · simp
  · simpa using h
  · simpa using hne

theorem of_mem_splitOn (h : ds ∈ cs.splitOn sep) : sep ∉ ds ∧ ds ⊆ cs := by
  induction cs generalizing ds with
  | nil =>
    obtain rfl := List.mem_singleton.mp h
    exact ⟨List.not_mem_nil, List.Subset.refl _⟩
  | cons c cs ih =>
    obtain ⟨front, rest, hsplit⟩ := List.exists_cons_of_ne_nil (List.splitOn_ne_nil sep cs)
    have hlater : ∀ {piece}, piece ∈ front :: rest → sep ∉ piece ∧ piece ⊆ cs := fun hmem =>
      ih (hsplit ▸ hmem)
    rw [List.splitOn_cons_eq_if_modifyHead, hsplit] at h
    split at h
    · rcases List.mem_cons.mp h with rfl | h
      · exact ⟨List.not_mem_nil, List.nil_subset _⟩
      · exact (hlater h).imp_right (List.subset_cons_of_subset _)
    · rename_i hc
      rcases List.mem_cons.mp h with rfl | h
      · obtain ⟨hfront, hsubset⟩ := hlater List.mem_cons_self
        have hne : sep ≠ c := fun heq => hc (beq_iff_eq.mpr heq.symm)
        exact ⟨List.not_mem_cons_of_ne_of_not_mem hne hfront, List.cons_subset_cons _ hsubset⟩
      · exact (hlater (List.mem_cons_of_mem _ h)).imp_right (List.subset_cons_of_subset _)

theorem of_mem_pieces (h : s ∈ pieces sep t) : sep ∉ s.toList ∧ s.toList ⊆ t.toList := by
  obtain ⟨cs, hcs, rfl⟩ := List.mem_map.mp h
  rw [String.toList_ofList]
  exact of_mem_splitOn hcs

/-- A joined text holds what its parts and the separator hold. -/
theorem not_mem_intercalate (hsep : c ∉ t.toList) (h : ∀ s ∈ ss, c ∉ s.toList) :
    c ∉ (t.intercalate ss).toList := by
  induction ss with
  | nil => simp
  | cons s ss ih =>
    obtain ⟨hs, hss⟩ := List.forall_mem_cons.mp h
    cases ss with
    | nil => simpa using hs
    | cons s' ss =>
      rw [String.intercalate_cons_of_ne_nil (List.cons_ne_nil _ _), String.toList_append,
        String.toList_append, List.mem_append, List.mem_append, not_or, not_or]
      exact ⟨⟨hs, hsep⟩, ih hss⟩

/-- **Lines of cells are read back exactly if all of the cells fit.** -/
theorem tableCells_eq_iff {lines : List (List String)} (hne : lines ≠ [])
    (hlines : ∀ line ∈ lines, line ≠ []) :
    tableCells ("\n".intercalate (lines.map "\t".intercalate)) = lines ↔
      ∀ line ∈ lines, ∀ cell ∈ line, Fits cell.toList := by
  constructor
  · intro h line hline cell hcell
    rw [← h, tableCells] at hline
    obtain ⟨text, htext, rfl⟩ := List.mem_map.mp hline
    obtain ⟨htab, hsubset⟩ := of_mem_pieces hcell
    exact fits_iff.mpr ⟨htab, fun hmem => (of_mem_pieces htext).1 (hsubset hmem)⟩
  · intro h
    have htexts : ∀ text ∈ lines.map "\t".intercalate, '\n' ∉ text.toList :=
      List.forall_mem_map.mpr fun line hline =>
        not_mem_intercalate (by decide) fun cell hcell => (h line hline cell hcell).newline
    rw [tableCells, pieces_intercalate rfl (mt List.map_eq_nil_iff.mp hne) htexts, List.map_map]
    refine (List.map_congr_left fun line hline => ?_).trans (List.map_id lines)
    exact pieces_intercalate rfl (hlines line hline) fun cell hcell => (h line hline cell hcell).tab

/-- Lines are joined by line feeds, and one more comes last. -/
theorem join_map_append (hne : ss ≠ []) :
    String.join (ss.map (· ++ t)) = t.intercalate ss ++ t := by
  induction ss with
  | nil => exact absurd rfl hne
  | cons s ss ih =>
    cases ss with
    | nil => simp
    | cons s' ss =>
      rw [String.intercalate_cons_of_ne_nil (List.cons_ne_nil _ _), List.map_cons,
        String.join_cons, ih (List.cons_ne_nil _ _)]
      simp only [String.append_assoc]

/-- The lines of a table: the names, and each row as it is shown. -/
def shownLines (r : Rows) : List (List String) :=
  r.columns :: r.rows.map fun row => row.map Value.display

theorem render_table_eq (r : Rows) :
    Format.table.render r = "\n".intercalate ((shownLines r).map "\t".intercalate) ++ "\n" := by
  rw [← join_map_append (by simp [shownLines])]
  simp [Format.render, table, tableLine, shownLines, Function.comp_def]

theorem fits_shownLines_iff : (∀ line ∈ shownLines r, ∀ cell ∈ line, Fits cell.toList) ↔
    (∀ name ∈ r.columns, Fits name.toList) ∧
      ∀ row ∈ r.rows, ∀ s, .text s ∈ row → Fits s.toList := by
  rw [shownLines, List.forall_mem_cons, List.forall_mem_map]
  simp only [List.forall_mem_map, fits_display_iff]
  refine and_congr_right fun _ => forall₂_congr fun row _ => ?_
  exact ⟨fun h s hs => h _ hs s rfl, fun h v hv s hs => h s (hs ▸ hv)⟩

/-- **A table shows its result if and only if no name and no text has a separator in it.** -/
theorem render_table_framed_iff (r : Rows) (hcolumns : r.columns ≠ [])
    (hrows : ∀ row ∈ r.rows, row.length = r.columns.length) :
    ∃ body, Format.table.render r = body ++ "\n" ∧
      (tableCells body = r.columns :: r.rows.map (fun row => row.map Value.display) ↔
        (∀ name ∈ r.columns, Fits name.toList) ∧
          ∀ row ∈ r.rows, ∀ s, .text s ∈ row → Fits s.toList) := by
  have hlines : ∀ line ∈ shownLines r, line ≠ [] := by
    refine List.forall_mem_cons.mpr ⟨hcolumns, List.forall_mem_map.mpr fun row hrow => ?_⟩
    rw [Ne, ← List.length_eq_zero_iff, List.length_map, hrows row hrow, List.length_eq_zero_iff]
    exact hcolumns
  refine ⟨_, render_table_eq r, ?_⟩
  rw [← fits_shownLines_iff]
  exact tableCells_eq_iff (List.cons_ne_nil _ _) hlines

/-- Two rows of every kind of value: they are read back, and would not be if the text of one were
`x`, a line feed and `y`. -/
theorem render_table_framed_kinds :
    let r : Rows :=
      { columns := ["a", "b"]
        rows := [[.text "", .real 0.5], [.integer (-7), .blob [9, 10]], [.null, .text "x y"]] }
    (r.columns ≠ [] ∧ ∀ row ∈ r.rows, row.length = r.columns.length) ∧
      ∃ body, Format.table.render r = body ++ "\n" ∧
        (tableCells body = r.columns :: r.rows.map (fun row => row.map Value.display) ↔
          (∀ name ∈ r.columns, Fits name.toList) ∧
            ∀ row ∈ r.rows, ∀ s, .text s ∈ row → Fits s.toList) := by
  intro r
  have hshape : r.columns ≠ [] ∧ ∀ row ∈ r.rows, row.length = r.columns.length := by simp [r]
  exact ⟨hshape, render_table_framed_iff r hshape.1 hshape.2⟩

/-- A text with a line feed makes a row of its own. -/
example : tableCells "a\tb\nx\ny\t1" = [["a", "b"], ["x"], ["y", "1"]] := by decide

end Output

end TreeQuery
