import TreeQuery.Proofs.Query.Scanning

/-!
# The longest match

The tokens of a statement are declared by patterns (`Pattern`): each keyword in any case of its
letters, a name, a number, a text between two quotes, each symbol, and the word FROM. At a place
several patterns can match, and one pattern several texts. `Token.Stands cs t text` says which of
them counts, without a word on how texts are scanned: the longest text that any pattern matches
(`Longest`), a keyword rather than a name, and FROM together with the target after it. `Stuck`
says why nothing stands at a place.

Results:
* `stands_of_scan`: what `Token.scan` finds stands there.
* `stuck_of_scan`: where it finds nothing, nothing can be read.
-/

namespace TreeQuery.Query

/-! ## Patterns -/

/-- The patterns of tokens. -/
inductive Pattern where
  | keyword (k : Keyword)
  /-- The word FROM, without its target. -/
  | from_
  | ident
  | number
  | doubleQuoted
  | singleQuoted
  | symbol (s : Symbol)
  deriving DecidableEq, Repr

namespace Pattern

/-- The texts that a pattern matches. A keyword matches the pattern of names as well. -/
inductive Matches : Pattern → List Char → Prop where
  | keyword {k : Keyword} {w} : w.map Char.toLower = k.word.toList → Matches (.keyword k) w
  | from_ {w} : Form.From w → Matches .from_ w
  | ident {c cs} : isNameStart c → (∀ d ∈ cs, isNameChar d) → Matches .ident (c :: cs)
  | number {w} : Form.Number w → Matches .number w
  | doubleQuoted {cs} : Form.Quoted '"' cs → Matches .doubleQuoted ('"' :: cs)
  | singleQuoted {cs} : Form.Quoted '\'' cs → Matches .singleQuoted ('\'' :: cs)
  | symbol (s : Symbol) : Matches (.symbol s) s.spelling.toList

/-- The token of a text that a pattern matches. The word FROM alone is none. -/
def token? : Pattern → Option Token
  | keyword k => some (.keyword k)
  | from_ => none
  | ident => some .ident
  | number => some .number
  | doubleQuoted => some .doubleQuoted
  | singleQuoted => some .singleQuoted
  | symbol s => some (.symbol s)

end Pattern

/-- **The longest match**: a front of the characters that some pattern matches, and no pattern
matches a longer one. -/
structure Longest (cs text : List Char) : Prop where
  isPrefix : text <+: cs
  matched : ∃ p : Pattern, p.Matches text
  longest : ∀ {p : Pattern} {v}, p.Matches v → v <+: cs → v.length ≤ text.length

/-- The word FROM is the longest match in front of the characters, `space` is all the white space
after it, and `after` is what follows. -/
structure FromWord (cs w space after : List Char) : Prop where
  longest : Longest cs w
  word : Form.From w
  split : cs = w ++ (space ++ after)
  blank : ∀ d ∈ space, Text.isBlank d
  ends : ∀ d ∈ after.head?, ¬ Text.isBlank d

/-- **The lexeme in front of some characters**, its token and its text. -/
inductive Token.Stands (cs : List Char) : Token → List Char → Prop where
  | plain {p : Pattern} {t text} : p.token? = some t → p.Matches text → Longest cs text →
      (∀ k, Pattern.Matches (.keyword k) text → t = .keyword k) → ¬ Form.From text →
      Stands cs t text
  | source {w space after} {target : Target} : FromWord cs w space after →
      Target.scan after = some target →
      Stands cs (.source (String.ofList target.path))
        (w ++ (space ++ after.take target.length))

/-- What follows a quote that is never closed: no quote but doubled ones. -/
inductive Form.Unclosed (q : Char) : List Char → Prop where
  | nil : Unclosed q []
  | char {c cs} : c ≠ q → Unclosed q cs → Unclosed q (c :: cs)
  | doubled {cs} : Unclosed q cs → Unclosed q (q :: q :: cs)

/-- **Why no lexeme stands in front of some characters.** -/
inductive Stuck (cs : List Char) : ScanFault → Prop where
  | unmatched : (∀ (p : Pattern) v, p.Matches v → ¬ v <+: cs) → Stuck cs .unrecognized
  | unclosed {q content} : q = '"' ∨ q = '\'' → cs = q :: content → Form.Unclosed q content →
      Stuck cs .unrecognized
  | badSource {w space after} : FromWord cs w space after → Target.scan after = none →
      Stuck cs .badSource

/-! ## What can match a character -/

/-- The patterns by their first character. -/
theorem Pattern.Matches.cons_cases {p : Pattern} {c : Char} {v : List Char}
    (h : p.Matches (c :: v)) :
    (isNameStart c ∧ ∀ d ∈ v, isNameChar d) ∨ Form.Number (c :: v) ∨
      ((c = '"' ∨ c = '\'') ∧ Form.Quoted c v) ∨ ∃ s : Symbol, s.spelling.toList = c :: v := by
  have hname : (∃ c' v', c :: v = c' :: v' ∧ isNameStart c' ∧ ∀ d ∈ v', isNameChar d) →
      isNameStart c ∧ ∀ d ∈ v, isNameChar d := by
    rintro ⟨c', v', heq, hc, hv⟩
    obtain ⟨rfl, rfl⟩ := List.cons.inj heq
    exact ⟨hc, hv⟩
  generalize htext : c :: v = text at h
  cases h with
  | @keyword k w hk =>
    subst htext
    exact .inl (hname (isName_of_map_toLower hk k.word_isName))
  | from_ hw =>
    subst htext
    exact .inl (hname hw.isName)
  | ident hc hcs => exact .inl (hname ⟨_, _, htext, hc, hcs⟩)
  | number hw =>
    subst htext
    exact .inr (.inl hw)
  | doubleQuoted hcs =>
    obtain ⟨rfl, rfl⟩ := List.cons.inj htext
    exact .inr (.inr (.inl ⟨.inl rfl, hcs⟩))
  | singleQuoted hcs =>
    obtain ⟨rfl, rfl⟩ := List.cons.inj htext
    exact .inr (.inr (.inl ⟨.inr rfl, hcs⟩))
  | symbol s => exact .inr (.inr (.inr ⟨s, rfl⟩))

theorem Pattern.Matches.ne_nil {p : Pattern} {v : List Char} (h : p.Matches v) : v ≠ [] := by
  cases h with
  | @keyword k w hk =>
    obtain ⟨c, cs, rfl, -, -⟩ := isName_of_map_toLower hk k.word_isName
    exact List.cons_ne_nil _ _
  | from_ hw =>
    obtain ⟨c, cs, rfl, -, -⟩ := hw.isName
    exact List.cons_ne_nil _ _
  | number hw => cases hw <;> exact List.cons_ne_nil _ _
  | symbol s => cases s <;> exact List.cons_ne_nil _ _
  | _ => exact List.cons_ne_nil _ _

theorem Form.Number.lead {c : Char} {v : List Char} (h : Form.Number (c :: v)) :
    c.isDigit ∨ c = '.' ∧ ∃ fs es, v = fs ++ es ∧ Form.Digits fs ∧ Form.Exponent es := by
  cases h with
  | decimal hd => exact .inl hd
  | point hfs hes => exact .inr ⟨rfl, _, _, rfl, hfs, hes⟩
  | hexadecimal => exact .inl (by decide)

section Lead

variable {p : Pattern} {c : Char} {v : List Char}

theorem Pattern.Matches.of_name (h : p.Matches (c :: v)) (hc : isNameStart c) :
    ∀ d ∈ v, isNameChar d := by
  rcases h.cons_cases with ⟨-, hv⟩ | hnumber | ⟨rfl | rfl, -⟩ | ⟨s, hs⟩
  · exact hv
  · rcases hnumber.lead with hdigit | ⟨rfl, -⟩
    · exact absurd hdigit (not_isDigit_of_isNameStart hc)
    · exact absurd hc (by decide)
  · exact absurd hc (by decide)
  · exact absurd hc (by decide)
  · exact absurd hc (Symbol.lead_spelling hs).1

theorem Pattern.Matches.of_digit (h : p.Matches (c :: v)) (hc : c.isDigit) :
    Form.Number (c :: v) := by
  rcases h.cons_cases with ⟨hname, -⟩ | hnumber | ⟨rfl | rfl, -⟩ | ⟨s, hs⟩
  · exact absurd hc (not_isDigit_of_isNameStart hname)
  · exact hnumber
  · exact absurd hc (by decide)
  · exact absurd hc (by decide)
  · exact absurd hc (Symbol.lead_spelling hs).2.1

theorem Pattern.Matches.of_quote (h : p.Matches (c :: v)) (hc : c = '"' ∨ c = '\'') :
    Form.Quoted c v := by
  rcases h.cons_cases with ⟨hname, -⟩ | hnumber | ⟨-, hv⟩ | ⟨s, hs⟩
  · exact absurd hname (by rcases hc with rfl | rfl <;> decide)
  · rcases hnumber.lead with hdigit | ⟨rfl, -⟩
    · exact absurd hdigit (by rcases hc with rfl | rfl <;> decide)
    · exact absurd hc (by decide)
  · exact hv
  · obtain ⟨-, -, hdouble, hsingle, -⟩ := Symbol.lead_spelling hs
    exact absurd hc (not_or.mpr ⟨hdouble, hsingle⟩)

theorem Pattern.Matches.of_point (h : p.Matches ('.' :: v)) :
    v = [] ∨ ∃ fs es, v = fs ++ es ∧ Form.Digits fs ∧ Form.Exponent es := by
  rcases h.cons_cases with ⟨hname, -⟩ | hnumber | ⟨hquote, -⟩ | ⟨s, hs⟩
  · exact absurd hname (by decide)
  · rcases hnumber.lead with hdigit | ⟨-, hv⟩
    · exact absurd hdigit (by decide)
    · exact .inr hv
  · exact absurd hquote (by decide)
  · obtain rfl := (Symbol.lead_spelling hs).2.2.2.2 rfl
    exact .inl (List.cons.inj hs).2.symm

theorem Pattern.Matches.of_other (h : p.Matches (c :: v)) (hname : ¬ isNameStart c)
    (hdigit : ¬ c.isDigit) (hquote : ¬ (c = '"' ∨ c = '\'')) (hpoint : c ≠ '.') :
    ∃ s : Symbol, s.spelling.toList = c :: v := by
  rcases h.cons_cases with ⟨hc, -⟩ | hnumber | ⟨hc, -⟩ | hs
  · exact absurd hc hname
  · rcases hnumber.lead with hc | ⟨hc, -⟩
    · exact absurd hc hdigit
    · exact absurd hc hpoint
  · exact absurd hc hquote
  · exact hs

end Lead

/-! ## Nothing longer matches -/

section Longest

variable {c q : Char} {cs v ds es fs rest : List Char} {n : Nat}

theorem length_le_takeWhile {p : Char → Bool} (hv : ∀ d ∈ v, p d) (h : v <+: cs) :
    v.length ≤ (cs.takeWhile p).length := by
  obtain ⟨rest, rfl⟩ := h
  rw [List.takeWhile_append_of_pos hv, List.length_append]
  omega

/-- Digits and something else after them are all the digits there are. -/
theorem digitsLength_of_prefix {d : Char} (hds : ∀ d ∈ ds, d.isDigit) (hd : ¬ d.isDigit)
    (h : ds ++ d :: v <+: cs) : digitsLength cs = ds.length ∧ d :: v <+: cs.drop ds.length := by
  obtain ⟨rest, rfl⟩ := h
  rw [List.append_assoc, List.drop_left]
  refine ⟨digitsLength_append hds ?_, List.prefix_append _ _⟩
  intro e he
  obtain rfl := Option.some.inj he
  exact hd

theorem length_le_exponentLength (hes : Form.Exponent es) (h : es <+: cs) :
    es.length ≤ exponentLength cs := by
  cases hes with
  | none => exact Nat.zero_le _
  | @some e sign ds he hsign hds =>
    obtain ⟨rest, rfl⟩ := h
    have hsigned : signLength (sign ++ (ds ++ rest)) = sign.length := by
      rcases hsign with rfl | rfl | rfl
      · obtain ⟨d, ds', rfl⟩ := List.exists_cons_of_ne_nil hds.1
        refine if_neg ?_
        rintro (rfl | rfl) <;> exact absurd (hds.2 _ List.mem_cons_self) (by decide)
      · rfl
      · rfl
    have hlength : ds.length ≤ digitsLength (ds ++ rest) :=
      length_le_takeWhile hds.2 (List.prefix_append _ _)
    have hpos : 0 < ds.length := List.length_pos_iff.mpr hds.1
    rw [List.cons_append, List.append_assoc, exponentLength_cons he, hsigned, List.drop_left,
      if_neg (by omega), List.length_cons, List.length_append]
    omega

/-- The character after the digits of a number, if the number goes on. -/
theorem not_isDigit_of_exponent {e : Char} (hes : Form.Exponent (e :: es)) : ¬ e.isDigit := by
  cases hes with
  | some he => rcases he with rfl | rfl <;> decide

/-- Digits and an exponent are measured to their end. -/
theorem length_le_digits (hds : ∀ d ∈ ds, d.isDigit) (hes : Form.Exponent es)
    (h : ds ++ es <+: cs) :
    ds.length + es.length ≤ digitsLength cs + exponentLength (cs.drop (digitsLength cs)) := by
  cases es with
  | nil =>
    rw [List.append_nil] at h
    have hdigits : ds.length ≤ digitsLength cs := length_le_takeWhile hds h
    rw [List.length_nil]
    omega
  | cons e es =>
    obtain ⟨hlength, hes'⟩ := digitsLength_of_prefix hds (not_isDigit_of_exponent hes) h
    rw [hlength]
    exact Nat.add_le_add_left (length_le_exponentLength hes hes') _

/-- A fraction and an exponent are measured to their end. -/
theorem length_le_fraction (hfs : Form.Fraction fs) (hes : Form.Exponent es)
    (h : fs ++ es <+: cs) :
    fs.length + es.length ≤
      fractionLength cs + exponentLength (cs.drop (fractionLength cs)) := by
  cases hfs with
  | none =>
    cases es with
    | nil => simp
    | cons e es =>
      have hzero : fractionLength cs = 0 := by
        obtain ⟨rest, rfl⟩ := h
        cases hes with
        | some he => rcases he with rfl | rfl <;> rfl
      rw [hzero, List.drop_zero]
      have := length_le_exponentLength hes h
      simpa using this
  | @some ds hds =>
    obtain ⟨rest, rfl⟩ := h
    rw [List.cons_append, List.cons_append, fractionLength, Nat.add_comm 1, List.drop_succ_cons]
    have hdigits := length_le_digits hds hes (List.prefix_append (ds ++ es) rest)
    rw [List.length_cons]
    omega

theorem length_le_decimalLength (hds : ∀ d ∈ ds, d.isDigit) (hfs : Form.Fraction fs)
    (hes : Form.Exponent es) (h : ds ++ (fs ++ es) <+: cs) :
    ds.length + (fs.length + es.length) ≤ decimalLength cs := by
  have hdecimal : decimalLength cs = digitsLength cs + (fractionLength (cs.drop (digitsLength cs))
      + exponentLength ((cs.drop (digitsLength cs)).drop
        (fractionLength (cs.drop (digitsLength cs))))) := by
    rw [decimalLength, List.drop_drop, Nat.add_assoc]
  rw [hdecimal]
  cases htail : fs ++ es with
  | nil =>
    obtain ⟨rfl, rfl⟩ := List.append_eq_nil_iff.mp htail
    rw [List.nil_append, List.append_nil] at h
    have hdigits : ds.length ≤ digitsLength cs := length_le_takeWhile hds h
    simp only [List.length_nil]
    omega
  | cons d tail =>
    have hd : ¬ d.isDigit := by
      cases hfs with
      | none =>
        rw [List.nil_append] at htail
        exact not_isDigit_of_exponent (htail ▸ hes)
      | some =>
        obtain ⟨rfl, -⟩ := List.cons.inj htail
        decide
    rw [htail] at h
    obtain ⟨hlength, htail'⟩ := digitsLength_of_prefix hds hd h
    rw [← htail] at htail'
    have := length_le_fraction hfs hes htail'
    rw [hlength]
    omega

theorem length_le_numberLength (h : Form.Number (c :: v)) (hc : c.isDigit) (hv : v <+: cs) :
    v.length ≤ numberLength c cs := by
  cases h with
  | point => exact absurd hc (by decide)
  | @decimal _ ds fs es hd hds hfs hes =>
    have hdecimal := length_le_decimalLength hds hfs hes hv
    simp only [List.length_append]
    rcases numberLength_cases c cs with hn | ⟨x, xs, rfl, rfl, hx, hne, hn⟩
    · omega
    · -- of `0x1` the decimal number is the `0` alone
      have hone : ds ++ (fs ++ es) = [] := by
        cases hall : ds ++ (fs ++ es) with
        | nil => rfl
        | cons d tail =>
          rw [hall] at hv
          obtain ⟨rfl, -⟩ := List.cons_prefix_cons.mp hv
          cases ds with
          | cons d ds =>
            obtain ⟨rfl, -⟩ := List.cons.inj hall
            exact absurd (hds _ List.mem_cons_self) (by rcases hx with rfl | rfl <;> decide)
          | nil =>
            cases hfs with
            | some => cases hall; simp at hx
            | none =>
              cases hes with
              | none => cases hall
              | some he =>
                cases hall
                rcases hx with rfl | rfl <;> simp at he
      have hlength := congrArg List.length hone
      simp only [List.length_append, List.length_nil] at hlength
      omega
  | @hexadecimal x ds hx hne hds =>
    obtain ⟨rest, rfl⟩ := hv
    have htake : ds.length ≤ ((ds ++ rest).takeWhile isHexDigit).length :=
      length_le_takeWhile hds (List.prefix_append _ _)
    have hpos : 0 < ds.length := List.length_pos_iff.mpr hne
    have hlength : numberLength '0' (x :: (ds ++ rest)) =
        1 + ((ds ++ rest).takeWhile isHexDigit).length := by
      rw [numberLength]
      simp only [if_pos hx]
      split
      · omega
      · rfl
    rw [List.cons_append, hlength, List.length_cons]
    omega

theorem quotedLength_char (hc : c ≠ q) (cs : List Char) :
    quotedLength q (c :: cs) = (quotedLength q cs).map (· + 1) := by
  cases cs with
  | nil => simp [quotedLength, hc]
  | cons d cs => simp [quotedLength, hc]

theorem quotedLength_doubled (q : Char) (cs : List Char) :
    quotedLength q (q :: q :: cs) = (quotedLength q cs).map (· + 2) := by
  simp [quotedLength]

theorem length_le_quotedLength (h : Form.Quoted q v) (hv : v <+: cs)
    (hn : quotedLength q cs = some n) : v.length ≤ n := by
  induction h generalizing cs n with
  | close =>
    obtain ⟨tail, rest, -, htail, rfl⟩ := exists_quoted hn
    cases htail <;> simp
  | char hc _ ih =>
    obtain ⟨rest, rfl⟩ := hv
    rw [List.cons_append, quotedLength_char hc] at hn
    obtain ⟨m, hm, rfl⟩ := Option.map_eq_some_iff.mp hn
    exact Nat.succ_le_succ (ih (List.prefix_append _ _) hm)
  | doubled _ ih =>
    obtain ⟨rest, rfl⟩ := hv
    rw [List.cons_append, List.cons_append, quotedLength_doubled] at hn
    obtain ⟨m, hm, rfl⟩ := Option.map_eq_some_iff.mp hn
    exact Nat.add_le_add_right (ih (List.prefix_append _ _) hm) 2

theorem unclosed_of_quotedLength : ∀ {cs : List Char}, quotedLength q cs = none →
    Form.Unclosed q cs
  | [], _ => .nil
  | c :: cs, h => by
    by_cases hc : c = q
    · obtain rfl := hc.symm
      cases cs with
      | nil => simp [quotedLength] at h
      | cons d cs =>
        by_cases hd : d = q
        · obtain rfl := hd.symm
          rw [quotedLength_doubled, Option.map_eq_none_iff] at h
          exact .doubled (unclosed_of_quotedLength h)
        · simp [quotedLength, hd] at h
    · rw [quotedLength_char hc, Option.map_eq_none_iff] at h
      exact .char hc (unclosed_of_quotedLength h)

theorem length_le_scan {s s' : Symbol} (h : Symbol.scan c cs = some (s, n))
    (hs : s'.spelling.toList = c :: v) (hv : v <+: cs) : v.length ≤ n := by
  cases v with
  | nil => exact Nat.zero_le _
  | cons d v =>
    obtain ⟨hpair, rfl⟩ := Symbol.ofPair?_spelling hs
    obtain ⟨rest, rfl⟩ := hv
    rw [List.cons_append, Symbol.scan, hpair] at h
    obtain ⟨-, rfl⟩ := Prod.mk.inj (Option.some.inj h)
    exact Nat.le_refl _

theorem exists_scan_of_spelling {s : Symbol} (hs : s.spelling.toList = c :: v) (hv : v <+: cs) :
    ∃ r, Symbol.scan c cs = some r := by
  cases v with
  | nil =>
    have hsingle := Symbol.ofChar?_spelling hs
    cases cs with
    | nil => exact ⟨_, by rw [Symbol.scan, hsingle]; rfl⟩
    | cons d cs =>
      cases hpair : Symbol.ofPair? c d with
      | some s' => exact ⟨(s', 1), by rw [Symbol.scan, hpair]; rfl⟩
      | none => exact ⟨(s, 0), by rw [Symbol.scan, hpair, hsingle]; rfl⟩
  | cons d v =>
    obtain ⟨hpair, rfl⟩ := Symbol.ofPair?_spelling hs
    obtain ⟨rest, rfl⟩ := hv
    exact ⟨(s, 1), by rw [List.cons_append, Symbol.scan, hpair]; rfl⟩

/-! ## One place -/

/-- A word is as long as any match at its place. -/
theorem longest_word (hc : isNameStart c) (hcs : ∀ d ∈ cs, isNameChar d)
    (hrest : ∀ d ∈ rest.head?, ¬ isNameChar d) : Longest (c :: (cs ++ rest)) (c :: cs) where
  isPrefix := List.cons_prefix_cons.mpr ⟨rfl, List.prefix_append cs rest⟩
  matched := ⟨.ident, .ident hc hcs⟩
  longest := by
    intro p v hp hv
    obtain ⟨c', v, rfl⟩ := List.exists_cons_of_ne_nil hp.ne_nil
    obtain ⟨rfl, htail⟩ := List.cons_prefix_cons.mp hv
    have hlength := length_le_takeWhile (hp.of_name hc) htail
    rw [takeWhile_append_stop hcs hrest] at hlength
    exact Nat.succ_le_succ hlength

theorem scanWord_length {t : Token} (h : scanWord c cs = .ok (t, n))
    (ht : ∀ path, t ≠ .source path) : n = (cs.takeWhile isNameChar).length := by
  obtain ⟨tail, rest, rfl, htail, hrest⟩ := exists_front isNameChar cs
  rw [takeWhile_append_stop htail hrest]
  rw [scanWord_append htail hrest] at h
  split at h
  · cases hsource : scanSource rest with
    | error e =>
      rw [hsource] at h
      cases h
    | ok r =>
      obtain ⟨t', m⟩ := r
      rw [hsource] at h
      obtain ⟨rfl, -⟩ := Prod.mk.inj (Except.ok.inj h)
      obtain ⟨_, path, _, _, -, -, -, rfl, -⟩ := exists_source hsource
      exact absurd rfl (ht _)
  · split at h <;> exact (Prod.mk.inj (Except.ok.inj h)).2.symm

theorem length_le_scanQuoted {t u : Token} (h : scanQuoted q u cs = .ok (t, n))
    (hq : Form.Quoted q v) (hv : v <+: cs) : v.length ≤ n := by
  rw [scanQuoted] at h
  cases hn : quotedLength q cs with
  | none =>
    rw [hn] at h
    cases h
  | some m =>
    rw [hn] at h
    obtain ⟨-, rfl⟩ := Prod.mk.inj (Except.ok.inj h)
    exact length_le_quotedLength hq hv hn

/-- A point is followed by no number where no digit follows it. -/
theorem digitsLength_pos (hfs : Form.Digits fs) (h : fs ++ es <+: cs) : 0 < digitsLength cs := by
  have hle : fs.length ≤ digitsLength cs :=
    length_le_takeWhile hfs.2 ((List.prefix_append fs es).trans h)
  have hpos : 0 < fs.length := List.length_pos_iff.mpr hfs.1
  omega

/-- **What is scanned is as long as any match** at its place, FROM apart. -/
theorem length_le_of_scan {p : Pattern} {t : Token} (h : Token.scan c cs = .ok (t, n))
    (ht : ∀ path, t ≠ .source path) (hp : p.Matches (c :: v)) (hv : v <+: cs) :
    v.length ≤ n := by
  rw [Token.scan] at h
  by_cases hname : isNameStart c
  · rw [if_pos hname] at h
    rw [scanWord_length h ht]
    exact length_le_takeWhile (hp.of_name hname) hv
  rw [if_neg hname] at h
  by_cases hdigit : c.isDigit
  · rw [if_pos hdigit] at h
    obtain ⟨-, rfl⟩ := Prod.mk.inj (Except.ok.inj h)
    exact length_le_numberLength (hp.of_digit hdigit) hdigit hv
  rw [if_neg hdigit] at h
  by_cases hpoint : c = '.' ∧ 0 < digitsLength cs
  · rw [if_pos hpoint] at h
    obtain ⟨-, rfl⟩ := Prod.mk.inj (Except.ok.inj h)
    obtain ⟨rfl, -⟩ := hpoint
    rcases hp.of_point with rfl | ⟨fs, es, rfl, hfs, hes⟩
    · exact Nat.zero_le _
    · rw [List.length_append]
      exact length_le_digits hfs.2 hes hv
  rw [if_neg hpoint] at h
  by_cases hdouble : c = '"'
  · rw [if_pos hdouble] at h
    subst hdouble
    exact length_le_scanQuoted h (hp.of_quote (.inl rfl)) hv
  rw [if_neg hdouble] at h
  by_cases hsingle : c = '\''
  · rw [if_pos hsingle] at h
    subst hsingle
    exact length_le_scanQuoted h (hp.of_quote (.inr rfl)) hv
  rw [if_neg hsingle] at h
  cases hsymbol : Symbol.scan c cs with
  | none =>
    rw [hsymbol] at h
    cases h
  | some r =>
    rw [hsymbol] at h
    obtain ⟨-, rfl⟩ := Prod.mk.inj (Except.ok.inj h)
    by_cases hc : c = '.'
    · subst hc
      rcases hp.of_point with rfl | ⟨fs, es, rfl, hfs, -⟩
      · exact Nat.zero_le _
      · exact absurd ⟨rfl, digitsLength_pos hfs hv⟩ hpoint
    · obtain ⟨s, hs⟩ := hp.of_other hname hdigit (not_or.mpr ⟨hdouble, hsingle⟩) hc
      exact length_le_scan hsymbol hs hv

end Longest

/-! ## What stands at a place -/

section Stands

variable {c : Char} {cs rest text : List Char} {n : Nat}

/-- The pattern of a written form. -/
theorem Token.Written.exists_pattern {t : Token} (h : t.Written text)
    (ht : ∀ path, t ≠ .source path) : ∃ p : Pattern, p.token? = some t ∧ p.Matches text := by
  cases h with
  | keyword hk => exact ⟨_, rfl, .keyword hk⟩
  | ident hc hcs _ _ => exact ⟨_, rfl, .ident hc hcs⟩
  | number hw => exact ⟨_, rfl, .number hw⟩
  | doubleQuoted hcs => exact ⟨_, rfl, .doubleQuoted hcs⟩
  | singleQuoted hcs => exact ⟨_, rfl, .singleQuoted hcs⟩
  | symbol s => exact ⟨_, rfl, .symbol s⟩
  | source => exact absurd rfl (ht _)

/-- A text that could be a name is a keyword or a name. -/
theorem Token.Written.of_isName {t : Token} (h : t.Written text) (ht : ∀ path, t ≠ .source path)
    (hname : ∃ c cs, text = c :: cs ∧ isNameStart c ∧ ∀ d ∈ cs, isNameChar d) :
    (∃ k : Keyword, t = .keyword k ∧ text.map Char.toLower = k.word.toList) ∨
      ¬ Form.From text ∧ Keyword.ofWord? text = none := by
  obtain ⟨c, cs, rfl, hc, -⟩ := hname
  obtain ⟨p, hp, hmatch⟩ := h.exists_pattern ht
  generalize htext : c :: cs = text at h
  cases h with
  | keyword hk => exact .inl ⟨_, rfl, hk⟩
  | ident _ _ hfrom hk => exact .inr ⟨hfrom, hk⟩
  | number hw =>
    subst htext
    rcases hw.lead with hdigit | ⟨rfl, -⟩
    · exact absurd hdigit (not_isDigit_of_isNameStart hc)
    · exact absurd hc (by decide)
  | doubleQuoted | singleQuoted =>
    obtain ⟨rfl, -⟩ := List.cons.inj htext
    exact absurd hc (by decide)
  | symbol s => exact absurd hc (Symbol.lead_spelling htext.symm).1
  | source => exact absurd rfl (ht _)

theorem fromWord {w space after : List Char} (hc : isNameStart c) (hw : ∀ d ∈ w, isNameChar d)
    (hfrom : Form.From (c :: w)) (hstop : ∀ d ∈ (space ++ after).head?, ¬ isNameChar d)
    (hspace : ∀ d ∈ space, Text.isBlank d) (hafter : ∀ d ∈ after.head?, ¬ Text.isBlank d) :
    FromWord (c :: (w ++ (space ++ after))) (c :: w) space after where
  longest := longest_word hc hw hstop
  word := hfrom
  split := rfl
  blank := hspace
  ends := hafter

theorem stands_of_scanWord {path : String} (hc : isNameStart c)
    (h : scanWord c cs = .ok (.source path, n)) :
    Token.Stands (c :: cs) (.source path) (c :: cs.take n) := by
  obtain ⟨w, rest, rfl, hw, hrest⟩ := exists_front isNameChar cs
  rw [scanWord_append hw hrest] at h
  split at h
  · rename_i hfrom
    obtain ⟨space, after, rfl, hspace, hafter⟩ := exists_front Text.isBlank rest
    rw [scanSource] at h
    simp only [takeWhile_append_stop hspace hafter, List.drop_left] at h
    cases htarget : Target.scan after with
    | none =>
      rw [htarget] at h
      cases h
    | some target =>
      rw [htarget] at h
      obtain ⟨hpath, rfl⟩ := Prod.mk.inj (Except.ok.inj h)
      obtain rfl := Token.source.inj hpath
      have htake : (w ++ (space ++ after)).take (w.length + (space.length + target.length)) =
          w ++ (space ++ after.take target.length) := by
        rw [List.take_length_add_append, List.take_length_add_append]
      rw [htake]
      exact .source (fromWord hc hw hfrom hrest hspace hafter) htarget
  · split at h <;> cases h

/-- FROM is scanned as a word. -/
theorem scan_source_inv {path : String} (h : Token.scan c cs = .ok (.source path, n)) :
    isNameStart c ∧ scanWord c cs = .ok (.source path, n) := by
  rw [Token.scan] at h
  split at h
  · exact ⟨by assumption, h⟩
  · exfalso
    unfold scanQuoted at h
    repeat' split at h
    all_goals cases h

/-- **What is scanned stands there.** -/
theorem stands_of_scan {t : Token} (h : Token.scan c cs = .ok (t, n)) :
    t.Stands (c :: cs) (c :: cs.take n) := by
  by_cases ht : ∃ path, t = .source path
  · obtain ⟨path, rfl⟩ := ht
    obtain ⟨hc, hword⟩ := scan_source_inv h
    exact stands_of_scanWord hc hword
  · simp only [not_exists] at ht
    obtain ⟨tail, rest, rfl, hwritten, rfl⟩ := written_of_scan h
    obtain ⟨p, hp, hmatch⟩ := hwritten.exists_pattern ht
    rw [List.take_left]
    refine .plain hp hmatch ?_ ?_ ?_
    · refine ⟨List.cons_prefix_cons.mpr ⟨rfl, List.prefix_append _ _⟩, ⟨p, hmatch⟩, ?_⟩
      intro p' v hp' hv
      obtain ⟨c', v, rfl⟩ := List.exists_cons_of_ne_nil hp'.ne_nil
      obtain ⟨rfl, htail⟩ := List.cons_prefix_cons.mp hv
      exact Nat.succ_le_succ (length_le_of_scan h ht hp' htail)
    · intro k hk
      cases hk with
      | keyword hk =>
        rcases hwritten.of_isName ht (isName_of_map_toLower hk k.word_isName) with
          ⟨k', rfl, hk'⟩ | ⟨-, hnone⟩
        · have heq := (Keyword.ofWord?_eq_some_iff.mpr hk').symm.trans
            (Keyword.ofWord?_eq_some_iff.mpr hk)
          rw [Option.some.inj heq]
        · exact nomatch hnone.symm.trans (Keyword.ofWord?_eq_some_iff.mpr hk)
    · intro hfrom
      rcases hwritten.of_isName ht hfrom.isName with ⟨k, rfl, hk⟩ | ⟨hnot, -⟩
      · exact k.word_ne_from (hk.symm.trans hfrom)
      · exact hnot hfrom

theorem stuck_of_scanWord {e : ScanFault} (hc : isNameStart c) (h : scanWord c cs = .error e) :
    Stuck (c :: cs) e := by
  obtain ⟨w, rest, rfl, hw, hrest⟩ := exists_front isNameChar cs
  rw [scanWord_append hw hrest] at h
  split at h
  · rename_i hfrom
    obtain ⟨space, after, rfl, hspace, hafter⟩ := exists_front Text.isBlank rest
    rw [scanSource] at h
    simp only [takeWhile_append_stop hspace hafter, List.drop_left] at h
    cases htarget : Target.scan after with
    | none =>
      rw [htarget] at h
      obtain rfl := Except.error.inj h
      exact .badSource (fromWord hc hw hfrom hrest hspace hafter) htarget
    | some target =>
      rw [htarget] at h
      cases h
  · split at h <;> cases h

theorem stuck_of_scanQuoted {q : Char} {t : Token} {e : ScanFault} (hq : q = '"' ∨ q = '\'')
    (h : scanQuoted q t cs = .error e) : Stuck (q :: cs) e := by
  rw [scanQuoted] at h
  cases hlength : quotedLength q cs with
  | none =>
    rw [hlength] at h
    obtain rfl := Except.error.inj h
    exact .unclosed hq rfl (unclosed_of_quotedLength hlength)
  | some m =>
    rw [hlength] at h
    cases h

/-- **Where nothing is scanned, nothing can be read.** -/
theorem stuck_of_scan {e : ScanFault} (h : Token.scan c cs = .error e) : Stuck (c :: cs) e := by
  rw [Token.scan] at h
  by_cases hname : isNameStart c
  · rw [if_pos hname] at h
    exact stuck_of_scanWord hname h
  rw [if_neg hname] at h
  by_cases hdigit : c.isDigit
  · rw [if_pos hdigit] at h
    cases h
  rw [if_neg hdigit] at h
  by_cases hpoint : c = '.' ∧ 0 < digitsLength cs
  · rw [if_pos hpoint] at h
    cases h
  rw [if_neg hpoint] at h
  by_cases hdouble : c = '"'
  · rw [if_pos hdouble] at h
    subst hdouble
    exact stuck_of_scanQuoted (.inl rfl) h
  rw [if_neg hdouble] at h
  by_cases hsingle : c = '\''
  · rw [if_pos hsingle] at h
    subst hsingle
    exact stuck_of_scanQuoted (.inr rfl) h
  rw [if_neg hsingle] at h
  cases hsymbol : Symbol.scan c cs with
  | some r =>
    rw [hsymbol] at h
    cases h
  | none =>
    rw [hsymbol] at h
    obtain rfl := Except.error.inj h
    have hnone : ∀ {s : Symbol} {v}, s.spelling.toList = c :: v → ¬ v <+: cs := by
      intro s v hs hv
      obtain ⟨r, hr⟩ := exists_scan_of_spelling hs hv
      rw [hsymbol] at hr
      cases hr
    refine .unmatched fun p v hp hv => ?_
    obtain ⟨c', v, rfl⟩ := List.exists_cons_of_ne_nil hp.ne_nil
    obtain ⟨rfl, htail⟩ := List.cons_prefix_cons.mp hv
    by_cases hc : c' = '.'
    · subst hc
      exact hnone (s := .dot) rfl List.nil_prefix
    · obtain ⟨s, hs⟩ := hp.of_other hname hdigit (not_or.mpr ⟨hdouble, hsingle⟩) hc
      exact hnone hs htail

end Stands

end TreeQuery.Query
