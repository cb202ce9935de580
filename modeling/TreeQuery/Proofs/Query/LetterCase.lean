import TreeQuery.Proofs.Query.Spans

/-!
# Letter case

Nothing that the reading of tokens asks of a character tells the cases of a letter apart: what is
the same for both cases of every letter of ASCII is the same for a character and its lower-case
form (`apply_toLower`). So the lengths of words, numbers, quoted texts and targets do not depend on
case, nor do the words of the language and the symbols. A name is the same without its quotes up to
case (`unquote_toLower`). Only the path that FROM names is taken as it is written.

**`scan_toLower`**: a text in lower case has the tokens of the text, in the same lengths, up to the
paths.
-/

namespace TreeQuery.Query

/-! ## Characters -/

section

variable {c q : Char} {cs : List Char}

/-- What is the same for both cases of every letter does not depend on case. -/
theorem apply_toLower {α : Type} (f : Char → α)
    (h : ∀ n < 26, f (Char.ofNat (65 + n)).toLower = f (Char.ofNat (65 + n))) (c : Char) :
    f c.toLower = f c := by
  by_cases hc : c.isUpper
  · have hrange := isUpper_iff_toNat.mp hc
    have heq : c = Char.ofNat (65 + (c.toNat - 65)) := by
      rw [Nat.add_sub_cancel' hrange.1, Char.ofNat_toNat]
    rw [heq]
    exact h _ (by omega)
  · rw [toLower_of_not_isUpper hc]

theorem toLower_toLower (c : Char) : c.toLower.toLower = c.toLower :=
  apply_toLower Char.toLower (by decide) c

theorem isAlpha_toLower (c : Char) : c.toLower.isAlpha = c.isAlpha :=
  apply_toLower Char.isAlpha (by decide) c

theorem isNameStart_toLower (c : Char) : isNameStart c.toLower = isNameStart c :=
  apply_toLower isNameStart (by decide) c

theorem isNameChar_toLower (c : Char) : isNameChar c.toLower = isNameChar c :=
  apply_toLower isNameChar (by decide) c

theorem isDigit_toLower (c : Char) : c.toLower.isDigit = c.isDigit :=
  apply_toLower Char.isDigit (by decide) c

theorem isHexDigit_toLower (c : Char) : isHexDigit c.toLower = isHexDigit c :=
  apply_toLower isHexDigit (by decide) c

theorem isBlank_toLower (c : Char) : Text.isBlank c.toLower = Text.isBlank c :=
  apply_toLower Text.isBlank (by decide) c

theorem endsBare_toLower (c : Char) : Target.endsBare c.toLower = Target.endsBare c :=
  apply_toLower Target.endsBare (by decide) c

theorem ofChar?_toLower (c : Char) : Symbol.ofChar? c.toLower = Symbol.ofChar? c :=
  apply_toLower Symbol.ofChar? (by decide) c

/-- A character that is no letter stands for itself. -/
theorem toLower_eq_iff {x : Char} (hx : ¬ x.isAlpha) : c.toLower = x ↔ c = x := by
  by_cases hc : c.isUpper
  · have halpha : c.isAlpha := isAlpha_iff.mpr (.inl hc)
    constructor <;> rintro rfl
    · exact absurd halpha (isAlpha_toLower c ▸ hx)
    · exact absurd halpha hx
  · rw [toLower_of_not_isUpper hc]

/-! ## Lengths -/

theorem takeWhile_toLower {p : Char → Bool} (hp : ∀ c, p c.toLower = p c) (cs : List Char) :
    (cs.map Char.toLower).takeWhile p = (cs.takeWhile p).map Char.toLower := by
  have hcomp : p ∘ Char.toLower = p := funext hp
  rw [List.takeWhile_map, hcomp]

theorem length_takeWhile_toLower {p : Char → Bool} (hp : ∀ c, p c.toLower = p c) (cs : List Char) :
    ((cs.map Char.toLower).takeWhile p).length = (cs.takeWhile p).length := by
  rw [takeWhile_toLower hp, List.length_map]

/-- Case is given up once. -/
theorem map_toLower_map_toLower (cs : List Char) :
    (cs.map Char.toLower).map Char.toLower = cs.map Char.toLower := by
  rw [List.map_map]
  exact List.map_congr_left fun c _ => toLower_toLower c

theorem digitsLength_toLower (cs : List Char) :
    digitsLength (cs.map Char.toLower) = digitsLength cs :=
  length_takeWhile_toLower isDigit_toLower cs

theorem signLength_toLower (cs : List Char) :
    signLength (cs.map Char.toLower) = signLength cs := by
  cases cs with
  | nil => rfl
  | cons c cs =>
    have hsign : c.toLower = '+' ∨ c.toLower = '-' ↔ c = '+' ∨ c = '-' := by
      rw [toLower_eq_iff (by decide), toLower_eq_iff (by decide)]
    simp only [List.map_cons, signLength, hsign]

theorem exponentLength_toLower (cs : List Char) :
    exponentLength (cs.map Char.toLower) = exponentLength cs := by
  cases cs with
  | nil => rfl
  | cons e cs =>
    have he : e.toLower = 'e' ∨ e.toLower = 'E' ↔ e = 'e' ∨ e = 'E' :=
      iff_of_eq (apply_toLower (fun e => e = 'e' ∨ e = 'E') (by decide) e)
    by_cases hmark : e = 'e' ∨ e = 'E'
    · rw [List.map_cons, exponentLength_cons (he.mpr hmark), exponentLength_cons hmark,
        signLength_toLower, ← List.map_drop, digitsLength_toLower]
    · exact (if_neg (mt he.mp hmark)).trans (if_neg hmark).symm

theorem fractionLength_toLower (cs : List Char) :
    fractionLength (cs.map Char.toLower) = fractionLength cs := by
  cases cs with
  | nil => rfl
  | cons c cs =>
    by_cases hc : c = '.'
    · subst hc
      exact congrArg (1 + ·) (digitsLength_toLower cs)
    · have hc' : c.toLower ≠ '.' := mt (toLower_eq_iff (by decide)).mp hc
      rw [List.map_cons]
      unfold fractionLength
      simp [hc, hc']

theorem decimalLength_toLower (cs : List Char) :
    decimalLength (cs.map Char.toLower) = decimalLength cs := by
  simp only [decimalLength, ← List.map_drop, digitsLength_toLower, fractionLength_toLower,
    exponentLength_toLower]

theorem numberLength_of_ne (hc : c ≠ '0') (cs : List Char) :
    numberLength c cs = decimalLength cs := by
  unfold numberLength
  split
  · exact absurd rfl hc
  · rfl

theorem numberLength_zero {x : Char} (hx : x = 'x' ∨ x = 'X') (ds : List Char) :
    numberLength '0' (x :: ds) =
      if (ds.takeWhile isHexDigit).length = 0 then decimalLength (x :: ds)
      else 1 + (ds.takeWhile isHexDigit).length := by
  refine (if_pos hx).trans ?_
  split
  · rename_i hn
    exact (if_pos hn).symm
  · rename_i hn
    exact (if_neg hn).symm

theorem numberLength_toLower (c : Char) (cs : List Char) :
    numberLength c.toLower (cs.map Char.toLower) = numberLength c cs := by
  by_cases hc : c = '0'
  · subst hc
    cases cs with
    | nil => rfl
    | cons x ds =>
      have hx : x.toLower = 'x' ∨ x.toLower = 'X' ↔ x = 'x' ∨ x = 'X' :=
        iff_of_eq (apply_toLower (fun x => x = 'x' ∨ x = 'X') (by decide) x)
      have hzero : Char.toLower '0' = '0' := by decide
      by_cases hmark : x = 'x' ∨ x = 'X'
      · rw [List.map_cons, hzero, numberLength_zero (hx.mpr hmark), numberLength_zero hmark,
          ← List.map_cons, decimalLength_toLower, length_takeWhile_toLower isHexDigit_toLower]
      · have hlead : ∀ {y : Char} {ys : List Char}, ¬ (y = 'x' ∨ y = 'X') →
            ∀ z ∈ (y :: ys).head?, ¬ (z = 'x' ∨ z = 'X') := fun hy z hz =>
          Option.some.inj hz ▸ hy
        rw [List.map_cons, numberLength_eq_decimalLength (hlead (mt hx.mp hmark)),
          numberLength_eq_decimalLength (hlead hmark), ← List.map_cons, decimalLength_toLower]
  · have hc' : c.toLower ≠ '0' := mt (toLower_eq_iff (by decide)).mp hc
    rw [numberLength_of_ne hc, numberLength_of_ne hc', decimalLength_toLower]

theorem quotedLength_toLower (hq : ¬ q.isAlpha) (cs : List Char) :
    quotedLength q (cs.map Char.toLower) = quotedLength q cs := by
  induction cs using quotedLength.induct q with
  | case1 => rfl
  | _ => simp_all [quotedLength, toLower_eq_iff hq]

theorem map_push_length {t t' : Option Target} (c d : Char) {us vs : List Char}
    (hunit : us.length = vs.length) (h : t.map Target.length = t'.map Target.length) :
    (t.map (Target.push c us)).map Target.length =
      (t'.map (Target.push d vs)).map Target.length := by
  have hlength (c : Char) (us : List Char) :
      Target.length ∘ Target.push c us = (us.length + ·) ∘ Target.length := rfl
  rw [Option.map_map, Option.map_map, hlength, hlength, ← Option.map_map, ← Option.map_map, h,
    hunit]

theorem quotedRest_toLower (hq : ¬ q.isAlpha) (cs : List Char) :
    (Target.quotedRest q (cs.map Char.toLower)).map Target.length =
      (Target.quotedRest q cs).map Target.length := by
  have hescape (c : Char) : c.toLower = '\\' ↔ c = '\\' := toLower_eq_iff (by decide)
  have hquote (c : Char) : c.toLower = q ↔ c = q := toLower_eq_iff hq
  fun_induction Target.quotedRest q cs with
  | case1 => rfl
  | case2 => rfl
  | case3 => simp_all [Target.quotedRest]
  | case4 => simp_all [Target.quotedRest]
  | case5 d cs ih =>
    exact map_push_length _ _ rfl ih
  | case6 cs hslash ih =>
    have hq' : q.toLower = q := (hquote q).mpr rfl
    simp only [List.map_cons, Target.quotedRest, hslash, hq', if_false, if_true]
    exact map_push_length _ _ rfl ih
  | case7 d cs hslash hc =>
    simp_all [Target.quotedRest]
  | case8 c d cs hslash hc ih =>
    simp only [List.map_cons, Target.quotedRest, hescape, hslash, hquote, hc, if_false]
    exact map_push_length _ _ rfl ih

/-- Characters that are no letters stand for themselves. -/
theorem map_toLower_eq_iff {w v : List Char} (hv : ∀ x ∈ v, ¬ x.isAlpha) :
    w.map Char.toLower = v ↔ w = v := by
  induction v generalizing w with
  | nil => exact List.map_eq_nil_iff
  | cons x v ih =>
    obtain ⟨hx, hv⟩ := List.forall_mem_cons.mp hv
    cases w with
    | nil => simp
    | cons c w => rw [List.map_cons, List.cons.injEq, List.cons.injEq, toLower_eq_iff hx, ih hv]

theorem ofPair?_toLower (c d : Char) :
    Symbol.ofPair? c.toLower d.toLower = Symbol.ofPair? c d := by
  have hiff {c d : Char} {s : Symbol} : Symbol.ofPair? c d = some s ↔ [c, d] = s.spelling.toList :=
    ⟨fun h => (Symbol.ofPair?_eq_some h).symm, fun h => (Symbol.ofPair?_spelling h.symm).1⟩
  have hall (s : Symbol) : s.spelling.toList.all (!·.isAlpha) := by
    cases s <;> rfl
  have hplain (s : Symbol) : ∀ x ∈ s.spelling.toList, ¬ x.isAlpha := fun x hx => by
    simpa using List.all_eq_true.mp (hall s) x hx
  refine Option.ext fun s => ?_
  rw [hiff, hiff]
  exact map_toLower_eq_iff (w := [c, d]) (hplain s)

theorem scan_target_toLower (cs : List Char) :
    (Target.scan (cs.map Char.toLower)).map Target.length =
      (Target.scan cs).map Target.length := by
  cases cs with
  | nil => rfl
  | cons c cs =>
    have hquote (c : Char) : c.toLower = '"' ∨ c.toLower = '\'' ↔ c = '"' ∨ c = '\'' := by
      rw [toLower_eq_iff (by decide), toLower_eq_iff (by decide)]
    by_cases hc : c = '"' ∨ c = '\''
    · have halpha : ¬ c.isAlpha := by rcases hc with rfl | rfl <;> decide
      have hlower : c.toLower = c := (toLower_eq_iff halpha).mpr rfl
      have hrest := quotedRest_toLower halpha cs
      rw [List.map_cons, hlower, Target.scan, Target.scan, if_pos hc, if_pos hc, Option.map_map,
        Option.map_map]
      have hlength : Target.length ∘
          (fun t => (⟨t.path, 1 + t.length, c.utf8Size + t.bytes⟩ : Target)) =
            (1 + ·) ∘ Target.length := rfl
      rw [hlength, ← Option.map_map, ← Option.map_map, hrest]
    · have hbare (d : Char) : (!Target.endsBare d.toLower) = !Target.endsBare d := by
        rw [endsBare_toLower]
      have hrest := length_takeWhile_toLower (p := fun d => !Target.endsBare d) hbare cs
      rw [List.map_cons, Target.scan, Target.scan, if_neg hc, if_neg (mt (hquote c).mp hc),
        isDigit_toLower, endsBare_toLower]
      split
      · rfl
      · simp only [Option.map_some, List.length_cons, hrest]

theorem scan_symbol_toLower (c : Char) (cs : List Char) :
    Symbol.scan c.toLower (cs.map Char.toLower) = Symbol.scan c cs := by
  cases cs with
  | nil => simp only [List.map_nil, Symbol.scan, ofChar?_toLower]
  | cons d cs => simp only [List.map_cons, Symbol.scan, ofPair?_toLower, ofChar?_toLower]

/-- The keyword of a word is that of any spelling of it. -/
theorem ofWord?_toLower (w : List Char) :
    Keyword.ofWord? (w.map Char.toLower) = Keyword.ofWord? w := by
  rw [Keyword.ofWord?, map_toLower_map_toLower]
  rfl

/-! ## Names -/

theorem undouble_toLower (hq : ¬ q.isAlpha) (cs : List Char) :
    Text.undouble q (cs.map Char.toLower) = (Text.undouble q cs).map Char.toLower := by
  have hquote (c : Char) : c.toLower = q ↔ c = q := toLower_eq_iff hq
  have hself : q.toLower = q := (hquote q).mpr rfl
  fun_induction Text.undouble q cs with
  | case1 => rfl
  | case2 => rfl
  | case3 c d cs hpair ih =>
    simp only [List.map_cons, Text.undouble, hquote, if_pos hpair, hself, ih]
  | case4 c d cs hpair ih =>
    simp only [List.map_cons, Text.undouble, hquote, if_neg hpair] at ih ⊢
    rw [ih]

/-- What a name is without its quotes has the case of the name. -/
theorem unquote_toLower (cs : List Char) :
    Text.unquote (cs.map Char.toLower) = (Text.unquote cs).map Char.toLower := by
  cases cs with
  | nil => rfl
  | cons q cs =>
    by_cases hq : q = '"' ∨ q = '\''
    · have halpha : ¬ q.isAlpha := by rcases hq with rfl | rfl <;> decide
      have hself : q.toLower = q := (toLower_eq_iff halpha).mpr rfl
      have hlast : (cs.map Char.toLower).getLast? = some q ↔ cs.getLast? = some q := by
        rw [List.getLast?_map, Option.map_eq_some_iff]
        simp [toLower_eq_iff halpha]
      have hwhole := undouble_toLower halpha (q :: cs)
      rw [List.map_cons, hself] at hwhole ⊢
      simp only [Text.unquote, if_pos hq, hlast, hwhole, ← List.map_dropLast,
        undouble_toLower halpha]
      split <;> rfl
    · have hq' : ¬ (q.toLower = '"' ∨ q.toLower = '\'') := by
        rwa [toLower_eq_iff (by decide), toLower_eq_iff (by decide)]
      have hplain : Text.unquote (q :: cs) = q :: cs := if_neg hq
      rw [hplain, List.map_cons]
      exact if_neg hq'

/-! ## Tokens -/

/-- A token without the path that it names. -/
def Token.kind : Token → Token
  | source _ => .source ""
  | t => t

/-- What is scanned, without the path that is named. -/
def pathless (r : Except ScanFault (Token × Nat)) : Except ScanFault (Token × Nat) :=
  r.map fun s => (s.1.kind, s.2)

theorem pathless_map {r r' : Except ScanFault (Token × Nat)} (h : pathless r = pathless r')
    (n : Nat) : pathless (r.map fun (t, m) => (t, n + m)) =
      pathless (r'.map fun (t, m) => (t, n + m)) := by
  cases r <;> cases r' <;> simp_all [pathless, Except.map]

theorem scanQuoted_toLower (hq : ¬ q.isAlpha) (t : Token) (cs : List Char) :
    scanQuoted q t (cs.map Char.toLower) = scanQuoted q t cs := by
  rw [scanQuoted, scanQuoted, quotedLength_toLower hq]

theorem scanSource_toLower (cs : List Char) :
    pathless (scanSource (cs.map Char.toLower)) = pathless (scanSource cs) := by
  have hblank := length_takeWhile_toLower isBlank_toLower cs
  unfold scanSource
  simp only [hblank, ← List.map_drop]
  have htarget := scan_target_toLower (cs.drop (cs.takeWhile Text.isBlank).length)
  revert htarget
  cases Target.scan (cs.drop (cs.takeWhile Text.isBlank).length) <;>
    cases Target.scan ((cs.drop (cs.takeWhile Text.isBlank).length).map Char.toLower) <;>
    intro h <;> simp_all [pathless, Except.map, Token.kind]

theorem scanWord_toLower (c : Char) (cs : List Char) :
    pathless (scanWord c.toLower (cs.map Char.toLower)) = pathless (scanWord c cs) := by
  have hname := length_takeWhile_toLower isNameChar_toLower cs
  have hword : (c.toLower :: (cs.takeWhile isNameChar).map Char.toLower).map Char.toLower =
      (c :: cs.takeWhile isNameChar).map Char.toLower :=
    map_toLower_map_toLower (c :: cs.takeWhile isNameChar)
  have hkeyword : Keyword.ofWord? (c.toLower :: (cs.takeWhile isNameChar).map Char.toLower) =
      Keyword.ofWord? (c :: cs.takeWhile isNameChar) :=
    ofWord?_toLower (c :: cs.takeWhile isNameChar)
  have hsource := scanSource_toLower (cs.drop (cs.takeWhile isNameChar).length)
  unfold scanWord
  simp only [takeWhile_toLower isNameChar_toLower, hword, hkeyword, List.length_map,
    ← List.map_drop]
  split
  · exact pathless_map hsource _
  · rfl

/-- **The reading of a token does not depend on case**, up to the path that FROM names. -/
theorem scan_toLower (c : Char) (cs : List Char) :
    pathless (Token.scan c.toLower (cs.map Char.toLower)) = pathless (Token.scan c cs) := by
  have hpoint : c.toLower = '.' ↔ c = '.' := toLower_eq_iff (by decide)
  have hdouble : c.toLower = '"' ↔ c = '"' := toLower_eq_iff (by decide)
  have hsingle : c.toLower = '\'' ↔ c = '\'' := toLower_eq_iff (by decide)
  unfold Token.scan
  simp only [isNameStart_toLower, isDigit_toLower, digitsLength_toLower, numberLength_toLower,
    scan_symbol_toLower, hpoint, hdouble, hsingle, scanQuoted_toLower (q := '"') (by decide),
    scanQuoted_toLower (q := '\'') (by decide), ← List.map_drop, exponentLength_toLower]
  split
  · exact scanWord_toLower c cs
  · rfl

end

end TreeQuery.Query
