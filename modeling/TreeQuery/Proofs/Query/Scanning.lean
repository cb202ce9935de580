import TreeQuery.Proofs.Query.ExprRun
import TreeQuery.Proofs.Query.TokenForms

/-!
# Scanning

What `Token.scan` finds in front of a text is a written form of its token (`written_of_scan`), and
a written form is scanned as its token before everything that it may precede (`scan_of_written`).

`Lexes cs ws` says that the characters `cs` are cut into the tokens and texts `ws`. Each token is
scanned with the characters that really follow it, so that a text can be put together from the
back: `Lexes.of_written` adds a token in front if it may precede what is there. `tokenize` computes
`Lexes` (`exists_tokenize_iff`).
-/

namespace TreeQuery.Query

/-! ## One token -/

section Scanning

variable {c : Char} {cs rest : List Char}

theorem scanWord_append (hcs : ∀ d ∈ cs, isNameChar d) (hrest : ∀ d ∈ rest.head?, ¬ isNameChar d) :
    scanWord c (cs ++ rest) =
      if Form.From (c :: cs) then
        (scanSource rest).map fun (token, n) => (token, cs.length + n)
      else
        match Keyword.ofWord? (c :: cs) with
        | some k => .ok (.keyword k, cs.length)
        | none => .ok (.ident, cs.length) := by
  rw [scanWord]
  simp only [takeWhile_append_stop hcs hrest, List.drop_left]
  rfl

theorem scanSource_append {space path target : List Char}
    (hspace : ∀ d ∈ space, Text.isBlank d) (htarget : Form.Target path target)
    (hrest : ∀ d ∈ rest.head?, endsTarget target d) :
    scanSource (space ++ (target ++ rest)) =
      .ok (.source (String.ofList path), space.length + target.length) := by
  have hblank : ∀ d ∈ (target ++ rest).head?, ¬ Text.isBlank d := by
    intro d hd
    cases htarget with
    | quoted hq =>
      obtain rfl := Option.some.inj hd
      rcases hq with rfl | rfl <;> decide
    | bare _ hbare =>
      obtain rfl := Option.some.inj hd
      intro hblank
      exact hbare _ List.mem_cons_self (by simp [Target.endsBare, hblank])
  rw [scanSource]
  simp only [takeWhile_append_stop hspace hblank, List.drop_left, scan_target htarget hrest]
  rfl

/-- All the characters in front that meet a condition, and what follows them. -/
theorem exists_front (p : Char → Bool) (cs : List Char) : ∃ front rest, cs = front ++ rest ∧
    (∀ d ∈ front, p d) ∧ ∀ d ∈ rest.head?, ¬ p d := by
  refine ⟨cs.takeWhile p, cs.dropWhile p, List.takeWhile_append_dropWhile.symm,
    List.all_eq_true.mp List.all_takeWhile, ?_⟩
  intro d hd
  have hnot := List.head?_dropWhile_not p cs
  rw [hd] at hnot
  simpa using hnot

theorem exists_source {t : Token} {n : Nat} (h : scanSource cs = .ok (t, n)) :
    ∃ space path target rest, cs = space ++ (target ++ rest) ∧ (∀ d ∈ space, Text.isBlank d) ∧
      Form.Target path target ∧ t = .source (String.ofList path) ∧
      n = space.length + target.length := by
  obtain ⟨space, rest, rfl, hspace, hrest⟩ := exists_front Text.isBlank cs
  rw [scanSource] at h
  simp only [takeWhile_append_stop hspace hrest, List.drop_left] at h
  cases htarget : Target.scan rest with
  | none =>
    rw [htarget] at h
    cases h
  | some target =>
    rw [htarget] at h
    obtain ⟨rfl, rfl⟩ := Prod.mk.inj (Except.ok.inj h)
    obtain ⟨text, rest, rfl, hform, hspan⟩ := exists_target htarget
    have hlength : target.length = text.length := congrArg Target.length hspan
    exact ⟨space, target.path, text, rest, rfl, hspace, hform, rfl, by rw [hlength]⟩

theorem written_of_scanWord {t : Token} {n : Nat} (hc : isNameStart c)
    (h : scanWord c cs = .ok (t, n)) :
    ∃ tail rest, cs = tail ++ rest ∧ t.Written (c :: tail) ∧ n = tail.length := by
  obtain ⟨tail, rest, rfl, htail, hrest⟩ := exists_front isNameChar cs
  rw [scanWord_append htail hrest] at h
  by_cases hfrom : Form.From (c :: tail)
  · rw [if_pos hfrom] at h
    cases hsource : scanSource rest with
    | error e =>
      rw [hsource] at h
      cases h
    | ok r =>
      obtain ⟨t', m⟩ := r
      rw [hsource] at h
      obtain ⟨rfl, rfl⟩ := Prod.mk.inj (Except.ok.inj h)
      obtain ⟨space, path, target, rest, rfl, hspace, htarget, rfl, rfl⟩ := exists_source hsource
      refine ⟨tail ++ (space ++ target), rest, by simp, ?_, by simp⟩
      refine Token.Written.source hfrom hspace htarget ?_
      rintro rfl d hd
      refine hrest d ?_
      cases htarget <;> exact hd
  · rw [if_neg hfrom] at h
    cases hk : Keyword.ofWord? (c :: tail) with
    | some k =>
      rw [hk] at h
      obtain ⟨rfl, rfl⟩ := Prod.mk.inj (Except.ok.inj h)
      exact ⟨tail, rest, rfl, .keyword (Keyword.ofWord?_eq_some_iff.mp hk), rfl⟩
    | none =>
      rw [hk] at h
      obtain ⟨rfl, rfl⟩ := Prod.mk.inj (Except.ok.inj h)
      exact ⟨tail, rest, rfl, .ident hc htail hfrom hk, rfl⟩

theorem exists_scanQuoted {q : Char} {t u : Token} {n : Nat}
    (h : scanQuoted q u cs = .ok (t, n)) :
    ∃ tail rest, cs = tail ++ rest ∧ Form.Quoted q tail ∧ t = u ∧ n = tail.length := by
  rw [scanQuoted] at h
  cases hlength : quotedLength q cs with
  | none =>
    rw [hlength] at h
    cases h
  | some m =>
    rw [hlength] at h
    obtain ⟨rfl, rfl⟩ := Prod.mk.inj (Except.ok.inj h)
    obtain ⟨tail, rest, hcs, htail, hm⟩ := exists_quoted hlength
    exact ⟨tail, rest, hcs, htail, rfl, hm⟩

/-- **What is scanned is a written form** of its token. -/
theorem written_of_scan {t : Token} {n : Nat} (h : Token.scan c cs = .ok (t, n)) :
    ∃ tail rest, cs = tail ++ rest ∧ t.Written (c :: tail) ∧ n = tail.length := by
  rw [Token.scan] at h
  by_cases hname : isNameStart c
  · rw [if_pos hname] at h
    exact written_of_scanWord hname h
  rw [if_neg hname] at h
  by_cases hdigit : c.isDigit
  · rw [if_pos hdigit] at h
    obtain ⟨rfl, rfl⟩ := Prod.mk.inj (Except.ok.inj h)
    obtain ⟨tail, rest, hcs, htail, hlength⟩ := exists_number hdigit cs
    exact ⟨tail, rest, hcs, .number htail, hlength⟩
  rw [if_neg hdigit] at h
  by_cases hpoint : c = '.' ∧ 0 < digitsLength cs
  · rw [if_pos hpoint] at h
    obtain ⟨rfl, rfl⟩ := Prod.mk.inj (Except.ok.inj h)
    obtain ⟨ds, rest, rfl, hds, hlength⟩ := exists_digits cs
    obtain ⟨es, rest, rfl, hes, hexponent⟩ := exists_exponent rest
    have hne : ds ≠ [] := by
      rintro rfl
      rw [hlength] at hpoint
      exact absurd hpoint.2 (by decide)
    refine ⟨ds ++ es, rest, by simp, ?_, by simp [hlength, hexponent]⟩
    rw [hpoint.1]
    exact .number (.point ⟨hne, hds⟩ hes)
  rw [if_neg hpoint] at h
  by_cases hdouble : c = '"'
  · rw [if_pos hdouble] at h
    obtain ⟨tail, rest, hcs, htail, rfl, hn⟩ := exists_scanQuoted h
    exact ⟨tail, rest, hcs, hdouble ▸ .doubleQuoted htail, hn⟩
  rw [if_neg hdouble] at h
  by_cases hsingle : c = '\''
  · rw [if_pos hsingle] at h
    obtain ⟨tail, rest, hcs, htail, rfl, hn⟩ := exists_scanQuoted h
    exact ⟨tail, rest, hcs, hsingle ▸ .singleQuoted htail, hn⟩
  rw [if_neg hsingle] at h
  cases hsymbol : Symbol.scan c cs with
  | none =>
    rw [hsymbol] at h
    cases h
  | some r =>
    obtain ⟨s, m⟩ := r
    rw [hsymbol] at h
    obtain ⟨rfl, rfl⟩ := Prod.mk.inj (Except.ok.inj h)
    obtain ⟨tail, rest, hcs, hspelling, hm⟩ := Symbol.exists_scan hsymbol
    exact ⟨tail, rest, hcs, hspelling ▸ .symbol s, hm⟩

theorem scan_eq_scanWord (hc : isNameStart c) : Token.scan c cs = scanWord c cs := by
  rw [Token.scan, if_pos hc]

theorem scan_digit (hc : c.isDigit) : Token.scan c cs = .ok (.number, numberLength c cs) := by
  have hname : ¬ isNameStart c := fun h => not_isDigit_of_isNameStart h hc
  rw [Token.scan, if_neg hname, if_pos hc]

theorem scan_number (h : Form.Number (c :: cs)) (hrest : EndsNumber rest) :
    Token.scan c (cs ++ rest) = .ok (.number, cs.length) := by
  by_cases hc : c = '.'
  · subst hc
    cases h with
    | decimal hd => exact absurd hd (by decide)
    | @point fs es hfs hes =>
      have hdigits : digitsLength (fs ++ (es ++ rest)) = fs.length :=
        digitsLength_append hfs.2 fun d hd => (ne_digit_and_point_of_exponent hes hrest d hd).1
      have hpos : 0 < fs.length := List.length_pos_iff.mpr hfs.1
      rw [List.append_assoc, Token.scan, if_neg (by decide), if_neg (by decide), hdigits,
        if_pos ⟨rfl, hpos⟩]
      simp only [List.drop_left, exponentLength_append hes hrest, List.length_append]
  · have hdigit : c.isDigit := by
      cases h with
      | decimal hd => exact hd
      | point => exact absurd rfl hc
      | hexadecimal => decide
    rw [scan_digit hdigit, numberLength_append h hc hrest]

theorem scan_quote {q : Char} {t : Token} (h : q = '"' ∧ t = .doubleQuoted ∨ q = '\'' ∧
    t = .singleQuoted) (hcs : Form.Quoted q cs) (hrest : ∀ d ∈ rest.head?, d ≠ q) :
    Token.scan q (cs ++ rest) = .ok (t, cs.length) := by
  have hquoted : scanQuoted q t (cs ++ rest) = .ok (t, cs.length) := by
    rw [scanQuoted, quotedLength_append hcs hrest]
  rcases h with ⟨rfl, rfl⟩ | ⟨rfl, rfl⟩
  · exact hquoted
  · exact hquoted

theorem scan_symbol {s : Symbol} (h : s.spelling.toList = c :: cs)
    (hrest : ∀ d ∈ rest.head?, Token.mayPrecede (.symbol s) s.spelling.toList d) :
    Token.scan c (cs ++ rest) = .ok (.symbol s, cs.length) := by
  obtain ⟨hname, hdigit, hdouble, hsingle, hpoint⟩ := Symbol.lead_spelling h
  have hfraction : ¬ (c = '.' ∧ 0 < digitsLength (cs ++ rest)) := by
    rintro ⟨hc, hdigits⟩
    obtain rfl := hpoint hc
    obtain ⟨-, rfl⟩ := List.cons.inj h
    have hzero : digitsLength ([] ++ rest) = 0 :=
      digitsLength_append (by simp) fun d hd => by simpa [Token.mayPrecede] using hrest d hd
    omega
  rw [Token.scan, if_neg hname, if_neg hdigit, if_neg hfraction, if_neg hdouble, if_neg hsingle,
    Symbol.scan_spelling h hrest]

theorem endsNumber_of_mayPrecede {text : List Char}
    (hrest : ∀ d ∈ rest.head?, Token.mayPrecede .number text d) : EndsNumber rest :=
  fun d hd => by simpa [Token.mayPrecede] using hrest d hd

/-- The last character of a text with a target is that of the target. -/
theorem endsTarget_append {w target : List Char} (hne : target ≠ []) (d : Char) :
    endsTarget (w ++ target) d = endsTarget target d := by
  rw [endsTarget, endsTarget, List.getLast?_append]
  cases hlast : target.getLast? with
  | none => exact absurd (List.getLast?_eq_none_iff.mp hlast) hne
  | some q => rfl

theorem scan_source {w space path target : List Char} (hw : Form.From (c :: w))
    (hspace : ∀ d ∈ space, Text.isBlank d) (htarget : Form.Target path target)
    (hjoin : space = [] → ∀ d ∈ target.head?, ¬ isNameChar d)
    (hrest : ∀ d ∈ rest.head?, endsTarget target d) :
    Token.scan c (w ++ (space ++ target) ++ rest) =
      .ok (.source (String.ofList path), (w ++ (space ++ target)).length) := by
  obtain ⟨c', w', heq, hc, hw'⟩ := hw.isName
  obtain ⟨rfl, rfl⟩ := List.cons.inj heq
  have hhead : ∀ d ∈ (space ++ (target ++ rest)).head?, ¬ isNameChar d := by
    intro d hd
    cases space with
    | nil =>
      refine hjoin rfl d ?_
      cases htarget <;> exact hd
    | cons b space =>
      obtain rfl := Option.some.inj hd
      exact not_isNameChar_of_isBlank (hspace b List.mem_cons_self)
  rw [scan_eq_scanWord hc, List.append_assoc, List.append_assoc, scanWord_append hw' hhead,
    if_pos hw, scanSource_append hspace htarget hrest]
  simp [Except.map]

/-- **A written form is scanned** as its token before everything that it may precede. -/
theorem scan_of_written {t : Token} (h : t.Written (c :: cs))
    (hrest : ∀ d ∈ rest.head?, t.mayPrecede (c :: cs) d) :
    Token.scan c (cs ++ rest) = .ok (t, cs.length) := by
  generalize htext : c :: cs = text at h hrest
  cases h with
  | @keyword k w hk =>
    subst htext
    obtain ⟨c', cs', heq, hc, hcs⟩ := isName_of_map_toLower hk k.word_isName
    obtain ⟨rfl, rfl⟩ := List.cons.inj heq
    have hfrom : ¬ Form.From (c :: cs) := fun h => k.word_ne_from (hk.symm.trans h)
    have hend : ∀ d ∈ rest.head?, ¬ isNameChar d := fun d hd => by
      simpa [Token.mayPrecede] using hrest d hd
    rw [scan_eq_scanWord hc, scanWord_append hcs hend, if_neg hfrom,
      Keyword.ofWord?_eq_some_iff.mpr hk]
  | ident hc hcs hfrom hk =>
    obtain ⟨rfl, rfl⟩ := List.cons.inj htext
    have hend : ∀ d ∈ rest.head?, ¬ isNameChar d := fun d hd => by
      simpa [Token.mayPrecede] using hrest d hd
    rw [scan_eq_scanWord hc, scanWord_append hcs hend, if_neg hfrom, hk]
  | number hw =>
    subst htext
    exact scan_number hw (endsNumber_of_mayPrecede hrest)
  | doubleQuoted hcs =>
    obtain ⟨rfl, rfl⟩ := List.cons.inj htext
    exact scan_quote (.inl ⟨rfl, rfl⟩) hcs fun d hd => by simpa [Token.mayPrecede] using hrest d hd
  | singleQuoted hcs =>
    obtain ⟨rfl, rfl⟩ := List.cons.inj htext
    exact scan_quote (.inr ⟨rfl, rfl⟩) hcs fun d hd => by simpa [Token.mayPrecede] using hrest d hd
  | symbol s => exact scan_symbol htext.symm hrest
  | @source w space path target hw hspace htarget hjoin =>
    obtain ⟨c', w', rfl, -, -⟩ := hw.isName
    obtain ⟨rfl, rfl⟩ := List.cons.inj htext
    have hne : target ≠ [] := by cases htarget <;> exact List.cons_ne_nil _ _
    refine scan_source hw hspace htarget hjoin fun d hd => ?_
    have hend := hrest d hd
    rwa [Token.mayPrecede, ← List.append_assoc, endsTarget_append hne] at hend

end Scanning

/-! ## Whole texts -/

/-- The characters that may follow a fragment in a statement. -/
def endsFragment (d : Char) : Bool :=
  d == ' ' || d == ',' || d == ')'

theorem forall_mem_head?_nil {P : Char → Prop} : ∀ d ∈ ([] : List Char).head?, P d := by
  simp

theorem forall_mem_head?_append {P : Char → Prop} {cs rest : List Char}
    (hcs : ∀ d ∈ cs.head?, P d) (hrest : ∀ d ∈ rest.head?, P d) :
    ∀ d ∈ (cs ++ rest).head?, P d := by
  cases cs with
  | nil => exact hrest
  | cons c cs => exact hcs

/-- **The tokens of a text**: the characters are cut into these tokens and their texts. -/
inductive Lexes : List Char → List Spelling → Prop where
  | nil : Lexes [] []
  | gap {c cs ws} : Text.isGap c → Lexes cs ws → Lexes (c :: cs) ws
  | token {c cs rest t ws} : Token.scan c (cs ++ rest) = .ok (t, cs.length) → Lexes rest ws →
      Lexes (c :: (cs ++ rest)) ((t, c :: cs) :: ws)

theorem scan_gap {c : Char} (hc : Text.isGap c) (cs : List Char) :
    Token.scan c cs = .error .unrecognized := by
  simp only [Text.isGap, Bool.or_eq_true, beq_iff_eq] at hc
  rcases hc with (((rfl | rfl) | rfl) | rfl) | rfl <;> cases cs <;> rfl

theorem not_isGap_of_scan {c : Char} {cs : List Char} {r : Token × Nat}
    (h : Token.scan c cs = .ok r) : ¬ Text.isGap c := by
  intro hc
  exact nomatch (scan_gap hc cs).symm.trans h

theorem Lexes.exists_lexemesFrom {cs : List Char} {ws : List Spelling} (h : Lexes cs ws) :
    ∀ start, ∃ ls, lexemesFrom start cs = .ok ls ∧ ls.map Lexeme.spelling = ws := by
  induction h with
  | nil => exact fun start => ⟨[], by rw [lexemesFrom], rfl⟩
  | gap hc _ ih =>
    intro start
    obtain ⟨ls, hls, hws⟩ := ih (start + _)
    exact ⟨ls, by rw [lexemesFrom, if_pos hc]; exact hls, hws⟩
  | @token c cs rest t ws hscan _ ih =>
    intro start
    obtain ⟨ls, hls, hws⟩ := ih (start + Text.byteLength (c :: cs))
    refine ⟨⟨t, start, c :: cs⟩ :: ls, ?_, by rw [List.map_cons, hws]; rfl⟩
    rw [lexemesFrom, if_neg (not_isGap_of_scan hscan), hscan]
    simp only [List.take_left, List.drop_left, hls]
    rfl

theorem lexes_of_lexemesFrom {start : Nat} {cs : List Char} {ls : List Lexeme}
    (h : lexemesFrom start cs = .ok ls) : Lexes cs (ls.map Lexeme.spelling) := by
  induction hn : cs.length using Nat.strongRecOn generalizing start cs ls with
  | ind n ih =>
    cases cs with
    | nil =>
      rw [lexemesFrom] at h
      obtain rfl := Except.ok.inj h
      exact .nil
    | cons c cs =>
      rw [lexemesFrom] at h
      rw [List.length_cons] at hn
      by_cases hc : Text.isGap c
      · rw [if_pos hc] at h
        exact .gap hc (ih _ (by omega) h rfl)
      · rw [if_neg hc] at h
        cases hscan : Token.scan c cs with
        | error e =>
          rw [hscan] at h
          cases e <;> cases h
        | ok r =>
          obtain ⟨t, m⟩ := r
          obtain ⟨tail, rest, rfl, -, rfl⟩ := written_of_scan hscan
          rw [hscan] at h
          simp only [List.take_left, List.drop_left] at h
          rw [List.length_append] at hn
          cases hrest : lexemesFrom (start + Text.byteLength (c :: tail)) rest with
          | error e =>
            rw [hrest] at h
            cases h
          | ok ls' =>
            rw [hrest] at h
            obtain rfl := Except.ok.inj h
            exact .token hscan (ih _ (by omega) hrest rfl)

/-- **`tokenize` computes the tokens of a text.** -/
theorem exists_tokenize_iff {text : String} {ws : List Spelling} :
    (∃ ls, tokenize text = .ok ls ∧ ls.map Lexeme.spelling = ws) ↔ Lexes text.toList ws := by
  constructor
  · rintro ⟨ls, hls, rfl⟩
    exact lexes_of_lexemesFrom hls
  · exact fun h => h.exists_lexemesFrom 0

/-- A written form alone is one lexeme. -/
theorem tokenize_of_written {t : Token} {text : String} (h : t.Written text.toList) :
    tokenize text = .ok [⟨t, 0, text.toList⟩] := by
  obtain ⟨c, cs, htext⟩ := List.exists_cons_of_ne_nil h.ne_nil
  rw [htext] at h
  have hscan : Token.scan c (cs ++ []) = .ok (t, cs.length) :=
    scan_of_written h forall_mem_head?_nil
  rw [List.append_nil] at hscan
  rw [tokenize, htext, lexemesFrom, if_neg (not_isGap_of_scan hscan), hscan]
  simp only [List.take_length, List.drop_length, lexemesFrom]
  rfl

namespace Lexes

variable {cs rest : List Char} {ws : List Spelling}

/-- A token comes in front of a text that it may precede. -/
theorem of_written {t : Token} {text : List Char} (h : t.Written text)
    (hrest : ∀ d ∈ rest.head?, t.mayPrecede text d) (hws : Lexes rest ws) :
    Lexes (text ++ rest) ((t, text) :: ws) := by
  obtain ⟨c, cs, rfl⟩ := List.exists_cons_of_ne_nil h.ne_nil
  exact .token (scan_of_written h hrest) hws

/-- Every token of a text is in a written form. -/
theorem written (h : Lexes cs ws) : ∀ w ∈ ws, w.1.Written w.2 := by
  induction h with
  | nil => simp
  | gap _ _ ih => exact ih
  | token hscan _ ih =>
    obtain ⟨tail, rest', hcs, hwritten, hlength⟩ := written_of_scan hscan
    obtain ⟨rfl, -⟩ := List.append_inj hcs hlength
    exact List.forall_mem_cons.mpr ⟨hwritten, ih⟩

end Lexes

end TreeQuery.Query
