import TreeQuery.Proofs.Query.LongestMatch
import TreeQuery.Proofs.Text.Utf8

/-!
# Where the lexemes of a text stand

`Cuts` follows the reading of a text from a place on: over gaps and lexemes up to another place.
Every fact about places is an induction over it. A reading that succeeds cuts the whole text, and
one that fails cuts the text up to the byte that it reports.

**`tokenize_cut`**: the lexemes of a text stand in order at their bytes, each the longest match
there, with nothing but gaps between them; where a reading fails, this holds up to the byte that is
reported, and no lexeme stands at that byte.
-/

namespace TreeQuery.Query

/-- The byte after the text of a lexeme. -/
def Lexeme.stop (l : Lexeme) : Nat :=
  l.start + Text.byteLength l.text

/-- Space, tab, carriage return, line feed and form feed. -/
def isGapByte (b : UInt8) : Bool :=
  b == 0x20 || b == 0x09 || b == 0x0D || b == 0x0A || b == 0x0C

/-- **A text is cut into lexemes** up to the byte `stop`. -/
structure Cut (text : String) (stop : Nat) (ls : List Lexeme) : Prop where
  /-- No lexeme is empty, and none reaches beyond the place. -/
  inBounds : ∀ l ∈ ls, l.start < l.stop ∧ l.stop ≤ stop
  ordered : ls.Pairwise fun l l' => l.stop ≤ l'.start
  /-- Each lexeme stands at its byte: it is the longest match in what is left of the text. -/
  stands : ∀ l ∈ ls, ∃ before after, text.toList = before ++ (l.text ++ after) ∧
    Text.byteLength before = l.start ∧ l.token.Stands (l.text ++ after) l.text
  /-- Every byte outside the lexemes is a gap. -/
  gaps : ∀ {i b}, (Text.encode text)[i]? = some b → i < stop →
    (∀ l ∈ ls, ¬ (l.start ≤ i ∧ i < l.stop)) → isGapByte b

/-- What is wrong with a text where no lexeme stands. -/
def ScanFault.error (byte : Nat) : ScanFault → SyntaxError
  | unrecognized => .unrecognized byte
  | badSource => .badSource byte

/-! ## Readings -/

/-- **The reading of characters from the byte `start`** up to the byte `stop`, before `rest`. -/
inductive Cuts : Nat → List Char → List Lexeme → Nat → List Char → Prop where
  | done {start cs} : Cuts start cs [] start cs
  | gap {start c cs ls stop rest} : Text.isGap c → Cuts (start + c.utf8Size) cs ls stop rest →
      Cuts start (c :: cs) ls stop rest
  | token {start c cs more t ls stop rest} : Token.scan c (cs ++ more) = .ok (t, cs.length) →
      Cuts (start + Text.byteLength (c :: cs)) more ls stop rest →
      Cuts start (c :: (cs ++ more)) (⟨t, start, c :: cs⟩ :: ls) stop rest

/-- A reading of all the characters, or up to the first place where no lexeme stands. -/
def CutsAll (start : Nat) (cs : List Char) : Except SyntaxError (List Lexeme) → Prop
  | .ok ls => ∃ stop, Cuts start cs ls stop []
  | .error e => ∃ ls stop c rest fault, Cuts start cs ls stop (c :: rest) ∧ ¬ Text.isGap c ∧
      Token.scan c rest = .error fault ∧ e = fault.error stop

theorem cutsAll_lexemesFrom (start : Nat) (cs : List Char) :
    CutsAll start cs (lexemesFrom start cs) := by
  induction hn : cs.length using Nat.strongRecOn generalizing start cs with
  | ind n ih =>
    cases cs with
    | nil =>
      rw [lexemesFrom]
      exact ⟨start, .done⟩
    | cons c cs =>
      rw [List.length_cons] at hn
      rw [lexemesFrom]
      by_cases hc : Text.isGap c
      · rw [if_pos hc]
        have hrest := ih _ (by omega) (start + c.utf8Size) cs rfl
        cases hread : lexemesFrom (start + c.utf8Size) cs with
        | ok ls =>
          rw [hread] at hrest
          obtain ⟨stop, h⟩ := hrest
          exact ⟨stop, .gap hc h⟩
        | error e =>
          rw [hread] at hrest
          obtain ⟨ls, stop, c', rest, fault, h, hend⟩ := hrest
          exact ⟨ls, stop, c', rest, fault, .gap hc h, hend⟩
      · rw [if_neg hc]
        cases hscan : Token.scan c cs with
        | error fault =>
          have hend : CutsAll start (c :: cs) (.error (fault.error start)) :=
            ⟨[], start, c, cs, fault, .done, hc, hscan, rfl⟩
          cases fault <;> exact hend
        | ok r =>
          obtain ⟨t, m⟩ := r
          obtain ⟨tail, more, rfl, -, rfl⟩ := written_of_scan hscan
          simp only [List.take_left, List.drop_left]
          rw [List.length_append] at hn
          have hrest := ih _ (by omega) (start + Text.byteLength (c :: tail)) more rfl
          cases hread : lexemesFrom (start + Text.byteLength (c :: tail)) more with
          | ok ls =>
            rw [hread] at hrest
            obtain ⟨stop, h⟩ := hrest
            exact ⟨stop, .token hscan h⟩
          | error e =>
            rw [hread] at hrest
            obtain ⟨ls, stop, c', rest, fault, h, hend⟩ := hrest
            exact ⟨_, stop, c', rest, fault, .token hscan h, hend⟩

namespace Cuts

variable {start stop : Nat} {cs rest : List Char} {ls : List Lexeme}

theorem split (h : Cuts start cs ls stop rest) :
    ∃ front, cs = front ++ rest ∧ start + Text.byteLength front = stop := by
  induction h with
  | done => exact ⟨[], rfl, rfl⟩
  | @gap _ c _ _ _ _ _ _ ih =>
    obtain ⟨front, rfl, hstop⟩ := ih
    exact ⟨c :: front, rfl, by rw [Text.byteLength_cons, ← Nat.add_assoc, hstop]⟩
  | @token _ c tail _ _ _ _ _ _ _ ih =>
    obtain ⟨front, rfl, hstop⟩ := ih
    refine ⟨c :: (tail ++ front), by simp, ?_⟩
    rw [← List.cons_append, Text.byteLength_append, ← Nat.add_assoc, hstop]

theorem start_le (h : Cuts start cs ls stop rest) : start ≤ stop := by
  obtain ⟨front, -, rfl⟩ := h.split
  exact Nat.le_add_right _ _

theorem inBounds (h : Cuts start cs ls stop rest) :
    ∀ l ∈ ls, start ≤ l.start ∧ l.start < l.stop ∧ l.stop ≤ stop := by
  induction h with
  | done => simp
  | @gap start c _ _ _ _ _ _ ih =>
    intro l hl
    obtain ⟨hstart, hbounds⟩ := ih l hl
    exact ⟨by omega, hbounds⟩
  | @token start c tail _ t _ _ _ _ hrest ih =>
    have hpos : 0 < c.utf8Size := c.utf8Size_pos
    have hle := hrest.start_le
    rw [Text.byteLength_cons] at hle ih
    refine List.forall_mem_cons.mpr ⟨⟨Nat.le_refl _, ?_, ?_⟩, ?_⟩
    · rw [Lexeme.stop, Text.byteLength_cons]
      omega
    · rw [Lexeme.stop, Text.byteLength_cons]
      exact hle
    · intro l hl
      obtain ⟨hstart, hbounds⟩ := ih l hl
      exact ⟨by omega, hbounds⟩

theorem ordered (h : Cuts start cs ls stop rest) :
    ls.Pairwise fun l l' => l.stop ≤ l'.start := by
  induction h with
  | done => exact .nil
  | gap _ _ ih => exact ih
  | token _ hrest ih => exact .cons (fun l hl => (hrest.inBounds l hl).1) ih

theorem stands (h : Cuts start cs ls stop rest) :
    ∀ l ∈ ls, ∃ before after, cs = before ++ (l.text ++ after) ∧
      start + Text.byteLength before = l.start ∧ l.token.Stands (l.text ++ after) l.text := by
  induction h with
  | done => simp
  | @gap _ c _ _ _ _ _ _ ih =>
    intro l hl
    obtain ⟨before, after, rfl, hstart, hstands⟩ := ih l hl
    refine ⟨c :: before, after, rfl, ?_, hstands⟩
    rw [Text.byteLength_cons, ← Nat.add_assoc, hstart]
  | @token _ c tail more t _ _ _ hscan _ ih =>
    refine List.forall_mem_cons.mpr ⟨⟨[], more, rfl, rfl, ?_⟩, ?_⟩
    · have hstands := stands_of_scan hscan
      rwa [List.take_left] at hstands
    · intro l hl
      obtain ⟨before, after, rfl, hstart, hstands⟩ := ih l hl
      refine ⟨c :: (tail ++ before), after, by simp, ?_, hstands⟩
      rw [← List.cons_append, Text.byteLength_append, ← Nat.add_assoc, hstart]

end Cuts

/-! ## Bytes -/

/-- The bytes of some characters. -/
def bytesOf (cs : List Char) : List UInt8 :=
  cs.flatMap String.utf8EncodeChar

theorem length_bytesOf (cs : List Char) : (bytesOf cs).length = Text.byteLength cs := by
  induction cs with
  | nil => rfl
  | cons c cs ih =>
    rw [bytesOf, List.flatMap_cons, List.length_append, String.length_utf8EncodeChar,
      Text.byteLength_cons, ← ih, bytesOf]

theorem bytesOf_append (cs ds : List Char) : bytesOf (cs ++ ds) = bytesOf cs ++ bytesOf ds :=
  List.flatMap_append

theorem bytesOf_gap {c : Char} (hc : Text.isGap c) : ∃ b, bytesOf [c] = [b] ∧ isGapByte b := by
  simp only [Text.isGap, Bool.or_eq_true, beq_iff_eq] at hc
  rcases hc with (((rfl | rfl) | rfl) | rfl) | rfl <;> exact ⟨_, rfl, rfl⟩

/-- A byte outside the lexemes of a reading is that of a gap. -/
theorem Cuts.gaps {start stop : Nat} {cs rest : List Char} {ls : List Lexeme}
    (h : Cuts start cs ls stop rest) {i : Nat} {b : UInt8} (hb : (bytesOf cs)[i - start]? = some b)
    (hstart : start ≤ i) (hi : i < stop) (hout : ∀ l ∈ ls, ¬ (l.start ≤ i ∧ i < l.stop)) :
    isGapByte b := by
  induction h with
  | done => omega
  | @gap start c cs _ _ _ hc _ ih =>
    obtain ⟨g, hg, hgap⟩ := bytesOf_gap hc
    have hsize : c.utf8Size = 1 := by
      have hlength := length_bytesOf [c]
      rw [hg] at hlength
      simpa using hlength.symm
    rw [← List.singleton_append, bytesOf_append, hg] at hb
    rcases Nat.eq_or_lt_of_le hstart with rfl | hlt
    · rw [Nat.sub_self] at hb
      obtain rfl := Option.some.inj hb
      exact hgap
    · refine ih ?_ (by omega) hi hout
      rw [List.getElem?_append_right (by simp only [List.length_singleton]; omega)] at hb
      rw [hsize, ← hb, List.length_singleton, Nat.sub_sub]
  | @token start c tail more t ls stop rest _ _ ih =>
    obtain ⟨hfirst, hothers⟩ := List.forall_mem_cons.mp hout
    have hafter : start + Text.byteLength (c :: tail) ≤ i :=
      Nat.le_of_not_lt fun hlt => hfirst ⟨hstart, hlt⟩
    refine ih ?_ hafter hi hothers
    rw [← List.cons_append, bytesOf_append, List.getElem?_append_right
      (by rw [length_bytesOf]; omega), length_bytesOf, Nat.sub_sub] at hb
    exact hb

/-- A reading from the start of a text cuts it. -/
theorem Cuts.cut {text : String} {ls : List Lexeme} {stop : Nat} {rest : List Char}
    (h : Cuts 0 text.toList ls stop rest) : Cut text stop ls where
  inBounds l hl := (h.inBounds l hl).2
  ordered := h.ordered
  stands := by
    intro l hl
    obtain ⟨before, after, htext, hstart, hstands⟩ := h.stands l hl
    exact ⟨before, after, htext, by rwa [Nat.zero_add] at hstart, hstands⟩
  gaps := by
    intro i b hb hi hout
    rw [Text.encode_eq] at hb
    exact h.gaps hb (Nat.zero_le i) hi hout

/-- **What is read of a text** are its lexemes, each the longest match at its place. -/
theorem tokenize_cut (text : String) :
    match tokenize text with
    | .ok ls => Cut text (Text.encode text).length ls
    | .error e => ∃ ls before c after fault, text.toList = before ++ c :: after ∧
        Cut text (Text.byteLength before) ls ∧ ¬ Text.isGap c ∧ Stuck (c :: after) fault ∧
        e = fault.error (Text.byteLength before) := by
  have hall : CutsAll 0 text.toList (tokenize text) := cutsAll_lexemesFrom 0 text.toList
  cases hread : tokenize text with
  | ok ls =>
    rw [hread] at hall
    obtain ⟨stop, h⟩ := hall
    obtain ⟨front, htext, hstop⟩ := h.split
    rw [List.append_nil] at htext
    rw [Nat.zero_add, ← htext] at hstop
    have hlength : (Text.encode text).length = stop := by
      rw [Text.encode_eq, ← hstop]
      exact length_bytesOf _
    rw [hlength]
    exact h.cut
  | error e =>
    rw [hread] at hall
    obtain ⟨ls, stop, c, after, fault, h, hc, hscan, rfl⟩ := hall
    obtain ⟨before, htext, hstop⟩ := h.split
    rw [Nat.zero_add] at hstop
    exact ⟨ls, before, c, after, fault, htext, hstop ▸ h.cut, hc, stuck_of_scan hscan, by
      rw [hstop]⟩

end TreeQuery.Query
