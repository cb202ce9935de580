import TreeQuery.Proofs.Query.LongestMatch

/-!
# Texts with a gap between them

A gap ends every token: what is scanned in front of the end of a text is scanned in front of a gap
as well, whatever comes after the gap (`scan_append_gap`). So of two texts with a gap between them
each keeps its own lexemes (`Lexes.append_gap`), and its own tokens (`Tokens`).

Names, symbols and the parts of a number are measured in the characters before the gap alone. A
quoted text may contain gaps, but once it is closed it does not go on over one.
-/

namespace TreeQuery.Query

section Gap

variable {c g q : Char} {cs more : List Char}

/-- What meets a condition that the gap does not meet ends at the gap. -/
theorem takeWhile_append_gap {p : Char → Bool} (hp : ¬ p g) (cs more : List Char) :
    (cs ++ g :: more).takeWhile p = cs.takeWhile p := by
  induction cs with
  | nil => simp [hp]
  | cons c cs ih => rw [List.cons_append, List.takeWhile_cons, List.takeWhile_cons, ih]

theorem not_isNameChar_gap (hg : Text.isGap g) : ¬ isNameChar g :=
  not_isNameChar_of_isBlank (Text.isBlank_of_isGap hg)

theorem gap_ne_quote (hg : Text.isGap g) : g ≠ '"' ∧ g ≠ '\'' := by
  constructor <;> rintro rfl <;> exact absurd hg (by decide)

/-- A front without gaps ends before the first gap. -/
theorem prefix_of_append_gap {v : List Char} (hg : Text.isGap g) (hv : ∀ d ∈ v, ¬ Text.isGap d)
    (h : v <+: cs ++ g :: more) : v <+: cs := by
  induction v generalizing cs with
  | nil => exact List.nil_prefix
  | cons d v ih =>
    obtain ⟨hd, hv⟩ := List.forall_mem_cons.mp hv
    cases cs with
    | nil =>
      obtain ⟨rfl, -⟩ := List.cons_prefix_cons.mp h
      exact absurd hg hd
    | cons c cs =>
      obtain ⟨rfl, htail⟩ := List.cons_prefix_cons.mp h
      exact List.cons_prefix_cons.mpr ⟨rfl, ih hv htail⟩

/-! ### Numbers -/

theorem not_isGap_of_isNameChar {d : Char} (hd : isNameChar d) : ¬ Text.isGap d :=
  fun h => not_isNameChar_gap h hd

theorem Form.Digits.not_isGap {ds : List Char} (h : ∀ d ∈ ds, d.isDigit) :
    ∀ d ∈ ds, ¬ Text.isGap d :=
  fun d hd => not_isGap_of_isNameChar (isNameChar_of_isDigit (h d hd))

theorem Form.Exponent.not_isGap {es : List Char} (h : Form.Exponent es) :
    ∀ d ∈ es, ¬ Text.isGap d := by
  cases h with
  | none => simp
  | @some e sign ds he hsign hds =>
    have hletter : ¬ Text.isGap e := by rcases he with rfl | rfl <;> decide
    have hsign' : ∀ d ∈ sign, ¬ Text.isGap d := by
      rcases hsign with rfl | rfl | rfl <;> simp [Text.isGap]
    exact List.forall_mem_cons.mpr ⟨hletter,
      List.forall_mem_append.mpr ⟨hsign', Form.Digits.not_isGap hds.2⟩⟩

theorem Form.Number.not_isGap {v : List Char} (h : Form.Number v) : ∀ d ∈ v, ¬ Text.isGap d := by
  cases h with
  | @decimal d ds fs es hd hds hfs hes =>
    have hfraction : ∀ d ∈ fs, ¬ Text.isGap d := by
      cases hfs with
      | none => simp
      | some hfs => exact List.forall_mem_cons.mpr ⟨by decide, Form.Digits.not_isGap hfs⟩
    exact List.forall_mem_cons.mpr ⟨not_isGap_of_isNameChar (isNameChar_of_isDigit hd),
      List.forall_mem_append.mpr ⟨Form.Digits.not_isGap hds,
        List.forall_mem_append.mpr ⟨hfraction, hes.not_isGap⟩⟩⟩
  | point hfs hes =>
    exact List.forall_mem_cons.mpr ⟨by decide,
      List.forall_mem_append.mpr ⟨Form.Digits.not_isGap hfs.2, hes.not_isGap⟩⟩
  | @hexadecimal x ds hx _ hds =>
    have hletter : ¬ Text.isGap x := by rcases hx with rfl | rfl <;> decide
    exact List.forall_mem_cons.mpr ⟨by decide, List.forall_mem_cons.mpr ⟨hletter,
      fun d hd => not_isGap_of_isNameChar (isNameChar_of_isHexDigit (hds d hd))⟩⟩

theorem digitsLength_append_gap (hg : Text.isGap g) (cs more : List Char) :
    digitsLength (cs ++ g :: more) = digitsLength cs :=
  congrArg List.length
    (takeWhile_append_gap (fun h => not_isNameChar_gap hg (isNameChar_of_isDigit h)) cs more)

/-- The longest exponent before the gap is the longest there is. -/
theorem exponentLength_append_gap (hg : Text.isGap g) (cs more : List Char) :
    exponentLength (cs ++ g :: more) = exponentLength cs := by
  refine Nat.le_antisymm ?_ ?_
  · obtain ⟨es, rest, hcs, hes, hlength⟩ := exists_exponent (cs ++ g :: more)
    rw [hlength]
    exact length_le_exponentLength hes
      (prefix_of_append_gap hg hes.not_isGap ⟨rest, hcs.symm⟩)
  · obtain ⟨es, rest, hcs, hes, hlength⟩ := exists_exponent cs
    rw [hlength]
    exact length_le_exponentLength hes
      (List.IsPrefix.trans ⟨rest, hcs.symm⟩ (List.prefix_append cs _))

theorem numberLength_append_gap (hg : Text.isGap g) (hc : c.isDigit) (cs more : List Char) :
    numberLength c (cs ++ g :: more) = numberLength c cs := by
  refine Nat.le_antisymm ?_ ?_
  · obtain ⟨tail, rest, hcs, htail, hlength⟩ := exists_number hc (cs ++ g :: more)
    rw [hlength]
    exact length_le_numberLength htail hc (prefix_of_append_gap hg
      (List.forall_mem_cons.mp htail.not_isGap).2 ⟨rest, hcs.symm⟩)
  · obtain ⟨tail, rest, hcs, htail, hlength⟩ := exists_number hc cs
    rw [hlength]
    exact length_le_numberLength htail hc
      (List.IsPrefix.trans ⟨rest, hcs.symm⟩ (List.prefix_append cs _))

/-! ### Quoted texts -/

theorem quotedLength_append_gap (hg : g ≠ q) (more : List Char) :
    ∀ {cs : List Char} {n : Nat}, quotedLength q cs = some n →
      quotedLength q (cs ++ g :: more) = some n
  | [c], n, h => by
    by_cases hc : c = q
    · simpa [quotedLength, hc, hg] using h
    · simp [quotedLength, hc] at h
  | c :: d :: cs, n, h => by
    by_cases hc : c = q
    · by_cases hd : d = q
      · rw [hc, hd, quotedLength_doubled] at h
        obtain ⟨m, hm, rfl⟩ := Option.map_eq_some_iff.mp h
        rw [hc, hd, List.cons_append, List.cons_append, quotedLength_doubled,
          quotedLength_append_gap hg more hm]
        rfl
      · simpa [quotedLength, hc, hd] using h
    · rw [quotedLength_char hc] at h
      obtain ⟨m, hm, rfl⟩ := Option.map_eq_some_iff.mp h
      rw [List.cons_append, quotedLength_char hc, quotedLength_append_gap hg more hm]
      rfl

theorem quotedRest_append_gap (hg : g ≠ q) (more : List Char) :
    ∀ {cs : List Char} {t : Target}, Target.quotedRest q cs = some t →
      Target.quotedRest q (cs ++ g :: more) = some t
  | [c], t, h => by
    by_cases hescape : c = '\\'
    · rw [hescape] at h
      cases h
    · by_cases hc : c = q
      · subst hc
        simpa [Target.quotedRest, hescape, hg] using h
      · simp [Target.quotedRest, hc] at h
  | c :: d :: cs, t, h => by
    rw [Target.quotedRest] at h
    rw [List.cons_append, List.cons_append, Target.quotedRest]
    by_cases hescape : c = '\\'
    · rw [if_pos hescape] at h ⊢
      obtain ⟨u, hu, rfl⟩ := Option.map_eq_some_iff.mp h
      rw [quotedRest_append_gap hg more hu]
      rfl
    · rw [if_neg hescape] at h ⊢
      by_cases hc : c = q
      · rw [if_pos hc] at h ⊢
        by_cases hd : d = q
        · rw [if_pos hd] at h ⊢
          obtain ⟨u, hu, rfl⟩ := Option.map_eq_some_iff.mp h
          rw [quotedRest_append_gap hg more hu]
          rfl
        · rwa [if_neg hd] at h ⊢
      · rw [if_neg hc] at h ⊢
        obtain ⟨u, hu, rfl⟩ := Option.map_eq_some_iff.mp h
        rw [← List.cons_append, quotedRest_append_gap hg more hu]
        rfl

/-! ### Words and symbols -/

theorem target_append_gap (hg : Text.isGap g) (more : List Char) {t : Target}
    (h : Target.scan cs = some t) : Target.scan (cs ++ g :: more) = some t := by
  obtain ⟨hdouble, hsingle⟩ := gap_ne_quote hg
  cases cs with
  | nil => cases h
  | cons c cs =>
    rw [Target.scan] at h
    rw [List.cons_append, Target.scan]
    by_cases hq : c = '"' ∨ c = '\''
    · have hne : g ≠ c := by rcases hq with rfl | rfl <;> assumption
      rw [if_pos hq] at h ⊢
      obtain ⟨u, hu, rfl⟩ := Option.map_eq_some_iff.mp h
      rw [quotedRest_append_gap hne more hu]
      rfl
    · rw [if_neg hq] at h ⊢
      split at h
      · cases h
      · rename_i hc
        rw [if_neg hc, takeWhile_append_gap (by simp [Target.endsBare, Text.isBlank_of_isGap hg])]
        exact h

theorem scanSource_append_gap (hg : Text.isGap g) (more : List Char) {r : Token × Nat}
    (h : scanSource cs = .ok r) : scanSource (cs ++ g :: more) = .ok r := by
  obtain ⟨space, after, rfl, hspace, hafter⟩ := exists_front Text.isBlank cs
  rw [scanSource] at h
  simp only [takeWhile_append_stop hspace hafter, List.drop_left] at h
  cases htarget : Target.scan after with
  | none =>
    rw [htarget] at h
    cases h
  | some target =>
    rw [htarget] at h
    -- there is a target, so the white space before it does not reach the gap
    have hstop : ∀ d ∈ (after ++ g :: more).head?, ¬ Text.isBlank d := by
      cases after with
      | nil => cases htarget
      | cons d after => exact hafter
    rw [scanSource]
    simp only [List.append_assoc, takeWhile_append_stop hspace hstop, List.drop_left,
      target_append_gap hg more htarget]
    exact h

theorem scanWord_append_gap (hg : Text.isGap g) (more : List Char) {r : Token × Nat}
    (h : scanWord c cs = .ok r) : scanWord c (cs ++ g :: more) = .ok r := by
  obtain ⟨w, rest, rfl, hw, hrest⟩ := exists_front isNameChar cs
  have hstop : ∀ d ∈ (rest ++ g :: more).head?, ¬ isNameChar d := by
    cases rest with
    | nil =>
      intro d hd
      obtain rfl := Option.some.inj hd
      exact not_isNameChar_gap hg
    | cons d rest => exact hrest
  rw [scanWord_append hw hrest] at h
  rw [List.append_assoc, scanWord_append hw hstop]
  split at h
  · rename_i hfrom
    rw [if_pos hfrom]
    cases hsource : scanSource rest with
    | error e =>
      rw [hsource] at h
      cases h
    | ok r' =>
      rw [hsource] at h
      rw [scanSource_append_gap hg more hsource]
      exact h
  · rename_i hfrom
    rwa [if_neg hfrom]

theorem scanQuoted_append_gap (hg : g ≠ q) (more : List Char) {t : Token} {r : Token × Nat}
    (h : scanQuoted q t cs = .ok r) : scanQuoted q t (cs ++ g :: more) = .ok r := by
  rw [scanQuoted] at h ⊢
  cases hlength : quotedLength q cs with
  | none =>
    rw [hlength] at h
    cases h
  | some n =>
    rw [hlength] at h
    rw [quotedLength_append_gap hg more hlength]
    exact h

theorem ofPair?_gap {c d : Char} (hd : Text.isGap d) : Symbol.ofPair? c d = none := by
  cases h : Symbol.ofPair? c d with
  | none => rfl
  | some s =>
    have hs := Symbol.ofPair?_eq_some h
    cases s <;> simp [Symbol.spelling] at hs <;>
      (obtain ⟨-, rfl⟩ := hs; exact absurd hd (by decide))

theorem Symbol.scan_append_gap (hg : Text.isGap g) (cs more : List Char) :
    Symbol.scan c (cs ++ g :: more) = Symbol.scan c cs := by
  cases cs with
  | nil => rw [List.nil_append, Symbol.scan, Symbol.scan, ofPair?_gap hg]; rfl
  | cons d cs => rfl

/-- **What is scanned before the end of a text** is scanned before a gap. -/
theorem scan_append_gap (hg : Text.isGap g) (more : List Char) {r : Token × Nat}
    (h : Token.scan c cs = .ok r) : Token.scan c (cs ++ g :: more) = .ok r := by
  obtain ⟨hdouble, hsingle⟩ := gap_ne_quote hg
  have hdrop : (cs ++ g :: more).drop (digitsLength cs) =
      cs.drop (digitsLength cs) ++ g :: more :=
    List.drop_append_of_le_length (List.takeWhile_prefix _).length_le
  rw [Token.scan] at h ⊢
  simp only [digitsLength_append_gap hg, hdrop, exponentLength_append_gap hg,
    Symbol.scan_append_gap hg]
  split at h
  · rename_i hname
    rw [if_pos hname]
    exact scanWord_append_gap hg more h
  rename_i hname
  rw [if_neg hname]
  split at h
  · rename_i hdigit
    rw [if_pos hdigit, numberLength_append_gap hg hdigit]
    exact h
  rename_i hdigit
  rw [if_neg hdigit]
  split at h
  · rename_i hpoint
    rw [if_pos hpoint]
    exact h
  rename_i hpoint
  rw [if_neg hpoint]
  split at h
  · rename_i hq
    rw [if_pos hq]
    exact scanQuoted_append_gap hdouble more h
  rename_i hq
  rw [if_neg hq]
  split at h
  · rename_i hq'
    rw [if_pos hq']
    exact scanQuoted_append_gap hsingle more h
  rename_i hq'
  rw [if_neg hq']
  exact h

end Gap

namespace Lexes

variable {cs ds : List Char} {ws vs : List Spelling} {g : Char}

/-- **Two texts with a gap between them** keep their tokens. -/
theorem append_gap (h : Lexes cs ws) (hg : Text.isGap g) (hds : Lexes ds vs) :
    Lexes (cs ++ g :: ds) (ws ++ vs) := by
  induction h with
  | nil => exact .gap hg hds
  | gap hc _ ih => exact .gap hc ih
  | token hscan _ ih =>
    have hscan' := scan_append_gap hg ds hscan
    rw [List.append_assoc] at hscan'
    rw [List.cons_append, List.append_assoc]
    exact .token hscan' ih

/-- A written form alone. -/
theorem single {t : Token} {text : List Char} (h : t.Written text) : Lexes text [(t, text)] := by
  have hlexes := of_written h forall_mem_head?_nil .nil
  rwa [List.append_nil] at hlexes

end Lexes

/-! ## The tokens of a text -/

/-- The characters are cut into lexemes of these tokens. -/
def Tokens (cs : List Char) (w : List Token) : Prop :=
  ∃ ws : List Spelling, Lexes cs ws ∧ ws.map Prod.fst = w

namespace Tokens

variable {cs ds : List Char} {u v w : List Token} {e : String}

theorem spaced (h : Tokens cs w) (h' : Tokens ds v) : Tokens (cs ++ ' ' :: ds) (w ++ v) := by
  obtain ⟨ws, hws, rfl⟩ := h
  obtain ⟨vs, hvs, rfl⟩ := h'
  exact ⟨ws ++ vs, hws.append_gap rfl hvs, List.map_append⟩

theorem single {t : Token} (h : t.Written cs) : Tokens cs [t] :=
  ⟨_, .single h, rfl⟩

theorem iff_tokenize : Tokens e.toList w ↔ ∃ ls, tokenize e = .ok ls ∧ ls.map Lexeme.token = w := by
  have htoken : ∀ ls : List Lexeme, (ls.map Lexeme.spelling).map Prod.fst = ls.map Lexeme.token :=
    fun ls => List.map_map
  constructor
  · rintro ⟨ws, hws, rfl⟩
    obtain ⟨ls, hls, rfl⟩ := exists_tokenize_iff.mpr hws
    exact ⟨ls, hls, (htoken ls).symm⟩
  · rintro ⟨ls, hls, rfl⟩
    exact ⟨_, exists_tokenize_iff.mp ⟨ls, hls, rfl⟩, htoken ls⟩

theorem unique (h : Tokens e.toList w) (h' : Tokens e.toList v) : w = v := by
  obtain ⟨ls, hls, rfl⟩ := iff_tokenize.mp h
  obtain ⟨ls', hls', rfl⟩ := iff_tokenize.mp h'
  rw [Except.ok.inj (hls.symm.trans hls')]

end Tokens

end TreeQuery.Query
