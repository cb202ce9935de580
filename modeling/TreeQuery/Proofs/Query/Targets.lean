import Mathlib.Data.String.Basic
import TreeQuery.Proofs.Query.TokenForms

/-!
# Targets in front of a text

The target of FROM is read straight off the text, and the reading of tokens goes on as many bytes
farther on. `Target.read?` gives the bytes that a target takes and the path that it spells; these
are the bytes of the characters that the target takes (`bytes_of_scan`).

Between quotes there is one way to cut a target off: `Target.quotedRest` finds what stands before
the first quote that is neither escaped nor doubled (`quotedRest_eq_some_iff`). A bare target is the
longest front without white space, quotes and commas (`scan_bare`, `eq_takeWhile_iff`).

**`read_isReader`**: what is read is such a front, no other front is one, its bytes end between two
characters, and the word FROM takes just these bytes and the white space before them.
-/

namespace TreeQuery

/-! ## Bytes -/

namespace Text

/-- The bytes of a text are those of its characters. -/
theorem byteLength_toList (s : String) : byteLength s.toList = s.utf8ByteSize := by
  have hlength : ∀ cs : List Char, byteLength cs = String.utf8Len cs := by
    intro cs
    induction cs with
    | nil => rfl
    | cons c cs ih => rw [byteLength_cons, String.utf8Len_cons, ih, Nat.add_comm]
  rw [hlength, String.utf8Len_toList]

theorem byteLength_le_of_prefix {as bs : List Char} (h : as <+: bs) :
    byteLength as ≤ byteLength bs := by
  obtain ⟨rest, rfl⟩ := h
  rw [byteLength_append]
  exact Nat.le_add_right _ _

/-- A front is all of a text if it takes as many bytes. -/
theorem eq_of_prefix_of_byteLength {as bs : List Char} (h : as <+: bs)
    (hle : byteLength bs ≤ byteLength as) : as = bs := by
  obtain ⟨rest, rfl⟩ := h
  rw [byteLength_append] at hle
  cases rest with
  | nil => rw [List.append_nil]
  | cons c rest =>
    have hpos := c.utf8Size_pos
    rw [byteLength_cons] at hle
    omega

end Text

namespace Query

namespace Target

/-! ## What is promised -/

/-- The first `n` bytes of a text are `front`. -/
def IsFront (input front : String) (n : Nat) : Prop :=
  ∃ rest, input = front ++ rest ∧ front.utf8ByteSize = n

/-- **A quoted target** that spells `s` takes the first `n` bytes, and no further quote follows
it. -/
def QuotedFront (q : Char) (input : String) (n : Nat) (s : String) : Prop :=
  ∃ front rest : String, input = front ++ rest ∧ front.utf8ByteSize = n ∧
    (∃ cs, front.toList = q :: cs ∧ Form.QuotedTarget q s.toList cs) ∧
    rest.toList.head? ≠ some q

/-- **A bare target** takes the first `n` bytes: the longest front without white space, quotes and
commas. -/
structure BareFront (input : String) (n : Nat) (s : String) : Prop where
  noDigit : ∀ c ∈ input.toList.head?, ¬ c.isDigit
  pos : 0 < n
  isFront : IsFront input s n
  bare : ∀ c ∈ s.toList, ¬ endsBare c
  longest : ∀ t m, IsFront input t m → (∀ c ∈ t.toList, ¬ endsBare c) → m ≤ n

/-- **A reader of targets.** -/
structure IsReader (read : String → Option (Nat × String)) : Prop where
  quoted : ∀ q input, q = '"' ∨ q = '\'' → input.toList.head? = some q →
    ∀ n s, read input = some (n, s) ↔ QuotedFront q input n s
  quoted_none : ∀ q input, q = '"' ∨ q = '\'' → input.toList.head? = some q →
    (read input = none ↔ ∀ n s, ¬ QuotedFront q input n s)
  /-- A text has at most one quoted target in front. -/
  quoted_unique : ∀ q input n n' s s', q = '"' ∨ q = '\'' → QuotedFront q input n s →
    QuotedFront q input n' s' → n = n' ∧ s = s'
  bare : ∀ input, (∀ q ∈ input.toList.head?, ¬ (q = '"' ∨ q = '\'')) →
    ∀ n s, read input = some (n, s) ↔ BareFront input n s
  /-- A target ends between two characters. -/
  boundary : ∀ input n s, read input = some (n, s) → (String.Pos.Raw.mk n).IsValid input
  /-- After the word FROM, white space and the bytes of the target belong to the token. -/
  source : ∀ space input, (∀ d ∈ space, Text.isBlank d) →
    (∀ d ∈ input.toList.head?, ¬ Text.isBlank d) →
    match read input with
    | some (n, s) => ∃ k, scanSource (space ++ input.toList) = .ok (.source s, k) ∧
        Text.byteLength ((space ++ input.toList).take k) = Text.byteLength space + n
    | none => scanSource (space ++ input.toList) = .error .badSource

/-! ## Fronts of texts -/

variable {q : Char} {cs : List Char} {input s : String} {n : Nat}

theorem isFront_iff {front : String} : IsFront input front n ↔
    ∃ rest, input.toList = front.toList ++ rest ∧ Text.byteLength front.toList = n := by
  constructor
  · rintro ⟨rest, rfl, hn⟩
    exact ⟨rest.toList, String.toList_append, by rw [Text.byteLength_toList, hn]⟩
  · rintro ⟨rest, hrest, hn⟩
    refine ⟨String.ofList rest, ?_, by rw [← Text.byteLength_toList, hn]⟩
    rw [← String.toList_inj, String.toList_append, String.toList_ofList, hrest]

theorem quotedFront_iff : QuotedFront q input n s ↔ ∃ cs rest,
    input.toList = q :: (cs ++ rest) ∧ Text.byteLength (q :: cs) = n ∧
      Form.QuotedTarget q s.toList cs ∧ ∀ d ∈ rest.head?, d ≠ q := by
  constructor
  · rintro ⟨front, rest, rfl, rfl, ⟨cs, hfront, hcs⟩, hrest⟩
    refine ⟨cs, rest.toList, ?_, ?_, hcs, ?_⟩
    · rw [String.toList_append, hfront]
      rfl
    · rw [← hfront, Text.byteLength_toList]
    · rintro d hd rfl
      exact hrest hd
  · rintro ⟨cs, rest, hinput, rfl, hcs, hrest⟩
    refine ⟨String.ofList (q :: cs), String.ofList rest, ?_, ?_,
      ⟨cs, String.toList_ofList, hcs⟩, ?_⟩
    · rw [← String.toList_inj, String.toList_append, String.toList_ofList, String.toList_ofList,
        hinput]
      rfl
    · rw [← Text.byteLength_toList, String.toList_ofList]
    · rw [String.toList_ofList]
      exact fun h => hrest q h rfl

/-! ## Quoted targets -/

/-- **A quoted target ends** at the first quote that is neither escaped nor doubled. -/
theorem quotedRest_eq_some_iff (hq : q = '"' ∨ q = '\'') {t : Target} :
    quotedRest q cs = some t ↔ ∃ tail rest, cs = tail ++ rest ∧
      Form.QuotedTarget q t.path tail ∧ t = .spanning t.path tail ∧ ∀ d ∈ rest.head?, d ≠ q := by
  constructor
  · exact exists_quotedTarget
  · rintro ⟨tail, rest, rfl, htail, hspan, hrest⟩
    rw [quotedRest_append hq htail hrest, ← hspan]

theorem scan_quoted (hq : q = '"' ∨ q = '\'') (cs : List Char) :
    scan (q :: cs) =
      (quotedRest q cs).map fun t => ⟨t.path, 1 + t.length, q.utf8Size + t.bytes⟩ := by
  rw [scan, if_pos hq]

theorem read_eq_some_iff : read? input = some (n, s) ↔
    ∃ t, scan input.toList = some t ∧ t.bytes = n ∧ t.path = s.toList := by
  rw [read?, Option.map_eq_some_iff]
  refine exists_congr fun t => and_congr_right fun _ => ?_
  rw [Prod.mk.injEq, ← String.toList_inj, String.toList_ofList]

/-- **The bytes of a target** are those of the characters that it takes. -/
theorem bytes_of_scan {t : Target} (h : scan cs = some t) :
    t.bytes = Text.byteLength (cs.take t.length) := by
  obtain ⟨text, rest, rfl, -, hspan⟩ := exists_target h
  rw [hspan, spanning, List.take_left]

theorem read_quoted_iff (hq : q = '"' ∨ q = '\'') (hinput : input.toList.head? = some q) :
    read? input = some (n, s) ↔ QuotedFront q input n s := by
  obtain ⟨cs, hcs⟩ := List.head?_eq_some_iff.mp hinput
  rw [read_eq_some_iff, quotedFront_iff, hcs, scan_quoted hq]
  constructor
  · rintro ⟨t, ht, hn, hpath⟩
    obtain ⟨u, hu, rfl⟩ := Option.map_eq_some_iff.mp ht
    obtain ⟨tail, rest, rfl, htail, hspan, hrest⟩ := (quotedRest_eq_some_iff hq).mp hu
    refine ⟨tail, rest, rfl, ?_, hpath ▸ htail, hrest⟩
    rw [← hn, hspan]
    rfl
  · rintro ⟨tail, rest, hsplit, hn, htail, hrest⟩
    obtain ⟨-, rfl⟩ := List.cons.inj hsplit
    refine ⟨⟨s.toList, 1 + tail.length, Text.byteLength (q :: tail)⟩, ?_, hn, rfl⟩
    rw [quotedRest_append hq htail hrest]
    rfl

/-! ## Bare targets -/

/-- The longest front of some characters that meet a condition. -/
theorem eq_takeWhile_iff {p : Char → Bool} {as : List Char} : as = cs.takeWhile p ↔
    as <+: cs ∧ (∀ c ∈ as, p c) ∧ ∀ bs, bs <+: cs → (∀ c ∈ bs, p c) →
      Text.byteLength bs ≤ Text.byteLength as := by
  have hmax : ∀ {bs : List Char}, bs <+: cs → (∀ c ∈ bs, p c) → bs <+: cs.takeWhile p := by
    rintro bs ⟨rest, rfl⟩ hbs
    rw [List.takeWhile_append_of_pos hbs]
    exact List.prefix_append _ _
  constructor
  · rintro rfl
    exact ⟨List.takeWhile_prefix p, List.all_eq_true.mp List.all_takeWhile,
      fun bs hbs hp => Text.byteLength_le_of_prefix (hmax hbs hp)⟩
  · rintro ⟨has, hp, hlongest⟩
    exact Text.eq_of_prefix_of_byteLength (hmax has hp)
      (hlongest _ (List.takeWhile_prefix p) (List.all_eq_true.mp List.all_takeWhile))

/-- What stands in front of the first white space, quote or comma. -/
def bareChars (cs : List Char) : List Char :=
  cs.takeWhile fun d => !endsBare d

theorem bareFront_iff : BareFront input n s ↔ (∀ c ∈ input.toList.head?, ¬ c.isDigit) ∧
    s.toList = bareChars input.toList ∧ s.toList ≠ [] ∧ Text.byteLength s.toList = n := by
  have hends : ∀ {cs : List Char}, (∀ c ∈ cs, ¬ endsBare c) ↔ ∀ c ∈ cs, !endsBare c := by simp
  rw [bareChars, eq_takeWhile_iff]
  constructor
  · rintro ⟨hdigit, hpos, hfront, hbare, hlongest⟩
    obtain ⟨rest, hrest, hn⟩ := isFront_iff.mp hfront
    refine ⟨hdigit, ⟨⟨rest, hrest.symm⟩, hends.mp hbare, ?_⟩, ?_, hn⟩
    · rintro bs ⟨more, hmore⟩ hbs
      rw [hn]
      refine hlongest (String.ofList bs) _ (isFront_iff.mpr ⟨more, ?_, ?_⟩) (hends.mpr ?_)
      · rw [String.toList_ofList, hmore]
      · rw [String.toList_ofList]
      · rwa [String.toList_ofList]
    · intro hnil
      rw [hnil, Text.byteLength_nil] at hn
      omega
  · rintro ⟨hdigit, ⟨⟨rest, hrest⟩, hbare, hlongest⟩, hne, hn⟩
    obtain ⟨c, cs, hcs⟩ := List.exists_cons_of_ne_nil hne
    refine ⟨hdigit, ?_, isFront_iff.mpr ⟨rest, hrest.symm, hn⟩, hends.mpr hbare, ?_⟩
    · have hpos := c.utf8Size_pos
      rw [← hn, hcs, Text.byteLength_cons]
      omega
    · intro t m ht hbare'
      obtain ⟨more, hmore, rfl⟩ := isFront_iff.mp ht
      rw [← hn]
      exact hlongest _ ⟨more, hmore.symm⟩ (hends.mp hbare')

theorem scan_bare {t : Target} (hbare : ∀ q ∈ cs.head?, ¬ (q = '"' ∨ q = '\'')) :
    scan cs = some t ↔ (∀ c ∈ cs.head?, ¬ c.isDigit) ∧ bareChars cs ≠ [] ∧
      t = .spanning (bareChars cs) (bareChars cs) := by
  cases cs with
  | nil => simp [scan, bareChars]
  | cons c cs =>
    rw [scan, if_neg (hbare c rfl)]
    by_cases hdigit : c.isDigit
    · rw [if_pos (.inl hdigit)]
      exact ⟨by rintro ⟨⟩, fun h => absurd hdigit (h.1 c rfl)⟩
    · by_cases hend : endsBare c
      · have hnone : bareChars (c :: cs) = [] := List.takeWhile_cons_of_neg (by simp [hend])
        rw [if_pos (.inr hend)]
        exact ⟨by rintro ⟨⟩, fun h => absurd hnone h.2.1⟩
      · have hsome : bareChars (c :: cs) = c :: bareChars cs :=
          List.takeWhile_cons_of_pos (by simp [hend])
        rw [if_neg (not_or.mpr ⟨hdigit, hend⟩), hsome]
        constructor
        · rintro ⟨⟩
          refine ⟨?_, List.cons_ne_nil _ _, rfl⟩
          rintro d ⟨⟩
          exact hdigit
        · rintro ⟨-, -, rfl⟩
          rfl

theorem read_bare_iff (hbare : ∀ q ∈ input.toList.head?, ¬ (q = '"' ∨ q = '\'')) :
    read? input = some (n, s) ↔ BareFront input n s := by
  rw [read_eq_some_iff, bareFront_iff]
  constructor
  · rintro ⟨t, ht, hn, hpath⟩
    obtain ⟨hdigit, hne, rfl⟩ := (scan_bare hbare).mp ht
    exact ⟨hdigit, hpath.symm, hpath ▸ hne, hpath ▸ hn⟩
  · rintro ⟨hdigit, hs, hne, hn⟩
    rw [hs] at hne hn
    exact ⟨_, (scan_bare hbare).mpr ⟨hdigit, hne, rfl⟩, hn, hs.symm⟩

/-! ## Targets -/

theorem read_boundary (h : read? input = some (n, s)) :
    (String.Pos.Raw.mk n).IsValid input := by
  obtain ⟨t, ht, hn, -⟩ := read_eq_some_iff.mp h
  rw [bytes_of_scan ht] at hn
  refine String.Pos.Raw.isValid_iff_exists_append.mpr
    ⟨String.ofList (input.toList.take t.length), String.ofList (input.toList.drop t.length), ?_, ?_⟩
  · rw [← String.ofList_append, List.take_append_drop, String.ofList_toList]
  · rw [String.Pos.Raw.ext_iff, String.byteIdx_rawEndPos, ← Text.byteLength_toList,
      String.toList_ofList, hn]

/-- The word FROM takes white space and the bytes of the target. -/
theorem scanSource_read {space : List Char} (hspace : ∀ d ∈ space, Text.isBlank d)
    (hinput : ∀ d ∈ input.toList.head?, ¬ Text.isBlank d) :
    match read? input with
    | some (n, s) => ∃ k, scanSource (space ++ input.toList) = .ok (.source s, k) ∧
        Text.byteLength ((space ++ input.toList).take k) = Text.byteLength space + n
    | none => scanSource (space ++ input.toList) = .error .badSource := by
  rw [scanSource, read?]
  simp only [takeWhile_append_stop hspace hinput, List.drop_left]
  cases htarget : scan input.toList with
  | none => rfl
  | some t =>
    refine ⟨_, rfl, ?_⟩
    rw [List.take_length_add_append, Text.byteLength_append, bytes_of_scan htarget]

/-- **Targets are read off the front of a text** as the grammar has them, byte for byte. -/
theorem read_isReader : IsReader read? where
  quoted := fun q input hq hinput n s => read_quoted_iff hq hinput
  quoted_none := by
    intro q input hq hinput
    rw [Option.eq_none_iff_forall_ne_some, Prod.forall]
    exact forall_congr' fun n => forall_congr' fun s => not_congr (read_quoted_iff hq hinput)
  quoted_unique := by
    intro q input n n' s s' hq h h'
    have hinput : input.toList.head? = some q := by
      obtain ⟨cs, rest, hinput, -⟩ := quotedFront_iff.mp h
      rw [hinput, List.head?_cons]
    have hread := (read_quoted_iff hq hinput).mpr h
    rw [(read_quoted_iff hq hinput).mpr h', Option.some.injEq, Prod.mk.injEq] at hread
    exact ⟨hread.1.symm, hread.2.symm⟩
  bare := fun input hbare n s => read_bare_iff hbare
  boundary := fun input n s h => read_boundary h
  source := fun space input hspace hinput => scanSource_read hspace hinput

/-- An escaped quote, a doubled one and a character of two bytes, with more text behind. -/
example : read? "'it''s\\' \u00e9' where" = some (12, "it's' \u00e9") := by decide +kernel

end Target

end Query

end TreeQuery
