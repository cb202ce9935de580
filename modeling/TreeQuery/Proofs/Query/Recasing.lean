import TreeQuery.Proofs.Query.LetterCase

/-!
# Changing the case of letters

Quoted tokens and the target of FROM are kept as they are written; everywhere else the case of
letters may be changed. `Recased text text'` says that it has been: the text is cut into lexemes,
and the characters of the other text are the same up to case, and the very same at every byte that
a lexeme keeps.

**`Recased.tokenize`**: the other text is cut into the same tokens at the same bytes, and the texts
of the tokens are recased. **`recased_of_tokenize`**: texts that are cut like this are recased.
-/

namespace TreeQuery.Query

/-- After how many characters the text of a token is kept, if it is: quoted texts from the first
on, and FROM and its target behind the word. -/
def Token.keptAfter? : Token → Option Nat
  | singleQuoted | doubleQuoted => some 0
  | source _ => some 4
  | _ => none

/-- Whether a byte belongs to the part of a lexeme that is kept. -/
def Lexeme.Keeps (l : Lexeme) (byte : Nat) : Prop :=
  ∃ k ∈ l.token.keptAfter?, l.start + k ≤ byte ∧ byte < l.stop

/-- **Characters up to the case of letters**, the same at the bytes that are kept; the first stands
at the given byte. -/
inductive RecasedFrom (keeps : Nat → Prop) : Nat → List Char → List Char → Prop where
  | nil {byte} : RecasedFrom keeps byte [] []
  | cons {byte c c' cs cs'} : c'.toLower = c.toLower → (keeps byte → c' = c) →
      RecasedFrom keeps (byte + c.utf8Size) cs cs' → RecasedFrom keeps byte (c :: cs) (c' :: cs')

/-- **A text and one in which the case of letters is changed** outside its quoted lexemes and the
targets of its FROM lexemes. -/
def Recased (text text' : String) : Prop :=
  ∃ ls, tokenize text = .ok ls ∧
    RecasedFrom (fun byte => ∃ l ∈ ls, l.Keeps byte) 0 text.toList text'.toList

/-- The text of a token and one in which the case of letters is changed where it may be. -/
structure Token.Recases (t : Token) (w w' : List Char) : Prop where
  letters : w'.map Char.toLower = w.map Char.toLower
  kept : ∀ k ∈ t.keptAfter?, w'.drop k = w.drop k

/-- The same token at the same bytes, with its text recased. -/
structure Lexeme.Recased (l l' : Lexeme) : Prop where
  token : l'.token = l.token
  start : l'.start = l.start
  stop : l'.stop = l.stop
  text : l.token.Recases l.text l'.text

/-! ## Characters at their bytes -/

section

variable {keeps keeps' : Nat → Prop} {start : Nat} {c c' : Char} {cs cs' ds ds' w w' : List Char}

theorem utf8Size_of_toLower (h : c'.toLower = c.toLower) : c'.utf8Size = c.utf8Size := by
  rw [← apply_toLower Char.utf8Size (by decide) c', h, apply_toLower Char.utf8Size (by decide) c]

/-- A gap has no case. -/
theorem eq_of_isGap (hgap : Text.isGap c) (h : c'.toLower = c.toLower) : c' = c := by
  have halpha : ¬ c.isAlpha := by
    simp only [Text.isGap, Bool.or_eq_true, beq_iff_eq] at hgap
    rcases hgap with (((rfl | rfl) | rfl) | rfl) | rfl <;> decide
  rw [(toLower_eq_iff halpha).mpr rfl] at h
  exact (toLower_eq_iff halpha).mp h

theorem byteLength_of_letters (h : cs'.map Char.toLower = cs.map Char.toLower) :
    Text.byteLength cs' = Text.byteLength cs := by
  induction cs generalizing cs' with
  | nil => rw [List.map_eq_nil_iff.mp h]
  | cons c cs ih =>
    obtain ⟨c', cs', rfl, hc, hcs⟩ := List.map_eq_cons_iff.mp h
    rw [Text.byteLength_cons, Text.byteLength_cons, utf8Size_of_toLower hc, ih hcs]

theorem length_of_letters (h : cs'.map Char.toLower = cs.map Char.toLower) :
    cs'.length = cs.length := by
  simpa using congrArg List.length h

namespace RecasedFrom

theorem letters (h : RecasedFrom keeps start cs cs') :
    cs'.map Char.toLower = cs.map Char.toLower := by
  induction h with
  | nil => rfl
  | cons hc _ _ ih => rw [List.map_cons, List.map_cons, hc, ih]

theorem mono (h : RecasedFrom keeps start cs cs')
    (hkeeps : ∀ b, start ≤ b → b < start + Text.byteLength cs → keeps' b → keeps b) :
    RecasedFrom keeps' start cs cs' := by
  induction h with
  | nil => exact .nil
  | @cons byte c _ cs _ hc hkept _ ih =>
    have hpos : 0 < c.utf8Size := c.utf8Size_pos
    rw [Text.byteLength_cons] at hkeeps
    refine .cons hc (fun h => hkept (hkeeps byte le_rfl (by omega) h)) (ih fun b hb hlt => ?_)
    exact hkeeps b (by omega) (by omega)

theorem split (h : RecasedFrom keeps start (cs ++ ds) w') : ∃ cs' ds', w' = cs' ++ ds' ∧
    RecasedFrom keeps start cs cs' ∧ RecasedFrom keeps (start + Text.byteLength cs) ds ds' := by
  induction cs generalizing start w' with
  | nil => exact ⟨[], w', rfl, .nil, h⟩
  | cons c cs ih =>
    cases h with
    | cons hc hkept hrest =>
      obtain ⟨cs', ds', rfl, hcs, hds⟩ := ih hrest
      refine ⟨_ :: cs', ds', rfl, .cons hc hkept hcs, ?_⟩
      rwa [Text.byteLength_cons, ← Nat.add_assoc]

theorem append (h : RecasedFrom keeps start cs cs')
    (hrest : RecasedFrom keeps (start + Text.byteLength cs) ds ds') :
    RecasedFrom keeps start (cs ++ ds) (cs' ++ ds') := by
  induction h with
  | nil => exact hrest
  | cons hc hkept _ ih =>
    rw [Text.byteLength_cons, ← Nat.add_assoc] at hrest
    exact .cons hc hkept (ih hrest)

/-- Where nothing is kept any case will do. -/
theorem of_letters (h : cs'.map Char.toLower = cs.map Char.toLower)
    (hkeeps : ∀ b, start ≤ b → b < start + Text.byteLength cs → ¬ keeps b) :
    RecasedFrom keeps start cs cs' := by
  induction cs generalizing start cs' with
  | nil =>
    obtain rfl := List.map_eq_nil_iff.mp h
    exact .nil
  | cons c cs ih =>
    obtain ⟨c', cs', rfl, hc, hcs⟩ := List.map_eq_cons_iff.mp h
    have hpos : 0 < c.utf8Size := c.utf8Size_pos
    rw [Text.byteLength_cons] at hkeeps
    refine .cons hc (fun hkept => absurd hkept (hkeeps start le_rfl (by omega))) (ih hcs ?_)
    exact fun b hb hlt => hkeeps b (by omega) (by omega)

theorem refl (keeps : Nat → Prop) (start : Nat) (cs : List Char) :
    RecasedFrom keeps start cs cs := by
  induction cs generalizing start with
  | nil => exact .nil
  | cons c cs ih => exact .cons rfl (fun _ => rfl) (ih _)

/-- Where all is kept nothing changes. -/
theorem eq_of_keeps (h : RecasedFrom keeps start cs cs')
    (hkeeps : ∀ b, start ≤ b → b < start + Text.byteLength cs → keeps b) : cs' = cs := by
  induction h with
  | nil => rfl
  | @cons byte c _ cs _ _ hkept _ ih =>
    have hpos : 0 < c.utf8Size := c.utf8Size_pos
    rw [Text.byteLength_cons] at hkeeps
    rw [hkept (hkeeps byte le_rfl (by omega)), ih fun b hb hlt => hkeeps b (by omega) (by omega)]

end RecasedFrom

/-- The word FROM has four characters, which take a byte each. -/
theorem Form.From.length {w : List Char} (h : Form.From w) :
    w.length = 4 ∧ Text.byteLength w = 4 := by
  have hletters : w.map Char.toLower = "from".toList.map Char.toLower := h
  exact ⟨length_of_letters hletters, byteLength_of_letters hletters⟩

/-- What comes before the kept part of a token takes a byte for each character. -/
theorem Token.Written.byteLength_take {t : Token} {k : Nat} (h : t.Written w)
    (hk : k ∈ t.keptAfter?) : k ≤ w.length ∧ Text.byteLength (w.take k) = k := by
  cases h with
  | keyword | ident | number | symbol => cases hk
  | doubleQuoted | singleQuoted =>
    obtain rfl := Option.some.inj hk
    exact ⟨Nat.zero_le _, rfl⟩
  | source hfrom =>
    obtain rfl := Option.some.inj hk
    obtain ⟨hlength, hbytes⟩ := hfrom.length
    refine ⟨by rw [List.length_append]; omega, ?_⟩
    rw [List.take_left' hlength, hbytes]

/-- **A lexeme is recased at its bytes** iff its text is recased. -/
theorem recasedFrom_keeps_iff {l : Lexeme} (h : l.token.Written l.text) :
    RecasedFrom l.Keeps l.start l.text w' ↔ l.token.Recases l.text w' := by
  cases hk : l.token.keptAfter? with
  | none =>
    have hfree : ∀ b, ¬ l.Keeps b := by
      simp [Lexeme.Keeps, hk]
    exact ⟨fun h => ⟨h.letters, by simp [hk]⟩, fun h => .of_letters h.letters fun b _ _ => hfree b⟩
  | some k =>
    have hkeeps (b : Nat) : l.Keeps b ↔ l.start + k ≤ b ∧ b < l.start + Text.byteLength l.text := by
      simp [Lexeme.Keeps, hk, Lexeme.stop]
    obtain ⟨hle, hfront⟩ := h.byteLength_take hk
    have hlength := Text.byteLength_append (l.text.take k) (l.text.drop k)
    rw [List.take_append_drop, hfront] at hlength
    constructor
    · intro hr
      refine ⟨hr.letters, fun j hj => ?_⟩
      obtain rfl : k = j := by simpa [hk] using hj
      rw [← List.take_append_drop k l.text] at hr
      obtain ⟨front, back, rfl, hfr, hback⟩ := hr.split
      rw [hfront] at hback
      have hsame := hback.eq_of_keeps fun b hb hlt => (hkeeps b).mpr (by omega)
      have hcount : front.length = k := by
        rw [length_of_letters hfr.letters, List.length_take, Nat.min_eq_left hle]
      rw [List.drop_left' hcount, hsame]
    · intro hr
      have hletters : (w'.take k).map Char.toLower = (l.text.take k).map Char.toLower := by
        rw [List.map_take, List.map_take, hr.letters]
      have hbefore : RecasedFrom l.Keeps l.start (l.text.take k) (w'.take k) :=
        .of_letters hletters fun b hb hlt hkept => by
          have hkept := (hkeeps b).mp hkept
          omega
      have hwhole := hbefore.append (.refl _ _ (l.text.drop k))
      rwa [List.take_append_drop, ← hr.kept k hk, List.take_append_drop] at hwhole

/-! ## Tokens -/

/-- The path that FROM names is that of what is kept. -/
theorem source_eq_of_drop {p p' : String} (h : (Token.source p).Written w)
    (h' : (Token.source p').Written w') (hdrop : w'.drop 4 = w.drop 4) : p' = p := by
  have hscan {p : String} {w : List Char} (h : (Token.source p).Written w) :
      ∃ n, scanSource (w.drop 4) = .ok (.source p, n) := by
    cases h with
    | @source w space path target hfrom hspace htarget =>
      have hread : scanSource (space ++ (target ++ [])) =
          .ok (.source (String.ofList path), space.length + target.length) :=
        scanSource_append hspace htarget forall_mem_head?_nil
      rw [List.append_nil] at hread
      rw [List.drop_left' hfrom.length.1]
      exact ⟨_, hread⟩
  obtain ⟨n, hn⟩ := hscan h
  obtain ⟨n', hn'⟩ := hscan h'
  rw [hdrop, hn] at hn'
  exact (Token.source.inj (Prod.mk.inj (Except.ok.inj hn')).1).symm

/-- What is scanned is in a written form. -/
theorem written_take {t : Token} {n : Nat} (h : Token.scan c cs = .ok (t, n)) :
    t.Written (c :: cs.take n) := by
  obtain ⟨tail, rest, rfl, hwritten, rfl⟩ := written_of_scan h
  rwa [List.take_left]

theorem eq_of_kind_eq {t t' : Token} (h : t'.kind = t.kind) :
    t' = t ∨ ∃ p p', t = .source p ∧ t' = .source p' := by
  cases t <;> cases t' <;> simp_all [Token.kind]

/-- **A recased token is read as the same token.** -/
theorem scan_recased {t : Token} {n : Nat} (h : Token.scan c cs = .ok (t, n))
    (hletters : (c' :: cs').map Char.toLower = (c :: cs).map Char.toLower)
    (htext : t.Recases (c :: cs.take n) (c' :: cs'.take n)) :
    Token.scan c' cs' = .ok (t, n) := by
  obtain ⟨hc, hcs⟩ := List.cons.inj hletters
  have hsame := scan_toLower c' cs'
  rw [hc, hcs, scan_toLower c cs, h] at hsame
  cases hscan : Token.scan c' cs' with
  | error e =>
    rw [hscan] at hsame
    cases hsame
  | ok r =>
    obtain ⟨t', m⟩ := r
    rw [hscan] at hsame
    obtain ⟨hkind, hm⟩ : t.kind = t'.kind ∧ n = m := Prod.mk.inj (Except.ok.inj hsame)
    subst hm
    rcases eq_of_kind_eq hkind.symm with rfl | ⟨p, p', rfl, rfl⟩
    · rfl
    · rw [source_eq_of_drop (written_take h) (written_take hscan) (htext.kept 4 rfl)]

/-! ## Readings -/

namespace Cuts

variable {stop stop' : Nat} {rest : List Char} {ls ls' : List Lexeme}

/-- **Recased characters are read as recased lexemes.** -/
theorem recased (h : Cuts start cs ls stop rest) (hkeeps : ∀ l ∈ ls, ∀ b, l.Keeps b → keeps b)
    (hr : RecasedFrom keeps start cs w') : ∃ ls' rest', Cuts start w' ls' stop rest' ∧
      RecasedFrom keeps stop rest rest' ∧ List.Forall₂ Lexeme.Recased ls ls' := by
  induction h generalizing w' with
  | done => exact ⟨[], w', .done, hr, .nil⟩
  | @gap start c _ _ _ _ hgap _ ih =>
    cases hr with
    | cons hc _ hr =>
      obtain rfl := eq_of_isGap hgap hc
      obtain ⟨ls', rest', hcuts, hrest, hls⟩ := ih hkeeps hr
      exact ⟨ls', rest', .gap hgap hcuts, hrest, hls⟩
  | @token start c tail more t ls stop rest hscan _ ih =>
    obtain ⟨hhead, htail⟩ := List.forall_mem_cons.mp hkeeps
    rw [← List.cons_append] at hr
    have hletters := hr.letters
    obtain ⟨text', more', rfl, htext, hmore⟩ := hr.split
    obtain ⟨ls', rest', hcuts, hrest, hls⟩ := ih htail hmore
    have hwritten := written_take hscan
    rw [List.take_left] at hwritten
    have hrecases : t.Recases (c :: tail) text' :=
      (recasedFrom_keeps_iff (l := ⟨t, start, c :: tail⟩) hwritten).mp
        (htext.mono fun b _ _ => hhead b)
    obtain ⟨c', tail', rfl, hc, htail'⟩ := List.map_eq_cons_iff.mp hrecases.letters
    have hscan' : Token.scan c' (tail' ++ more') = .ok (t, tail.length) := by
      refine scan_recased hscan hletters ?_
      rwa [List.take_left, List.take_left' (length_of_letters htail')]
    rw [← length_of_letters htail'] at hscan'
    have hbytes := byteLength_of_letters hrecases.letters
    rw [← hbytes] at hcuts
    exact ⟨_ :: ls', rest', .token hscan' hcuts, hrest,
      .cons ⟨rfl, rfl, congrArg (start + ·) hbytes, hrecases⟩ hls⟩

/-- **Characters that are read as recased lexemes are recased.** -/
theorem recasedFrom (h : Cuts start cs ls stop []) (h' : Cuts start cs' ls' stop' [])
    (hletters : cs'.map Char.toLower = cs.map Char.toLower)
    (hls : List.Forall₂ (fun l l' => l.token.Recases l.text l'.text) ls ls')
    (hkeeps : ∀ b, start ≤ b → keeps b → ∃ l ∈ ls, l.Keeps b) :
    RecasedFrom keeps start cs cs' := by
  generalize hend : ([] : List Char) = rest at h
  induction h generalizing cs' ls' with
  | done =>
    subst hend
    obtain rfl := List.map_eq_nil_iff.mp hletters
    exact .nil
  | @gap start c cs _ _ _ hgap hrest ih =>
    obtain ⟨c', cs', rfl, hc, hcs⟩ := List.map_eq_cons_iff.mp hletters
    obtain rfl := eq_of_isGap hgap hc
    cases h' with
    | gap _ h' =>
      have hpos : 0 < c'.utf8Size := c'.utf8Size_pos
      exact .cons rfl (fun _ => rfl)
        (ih h' hcs hls (fun b hb => hkeeps b (by omega)) hend)
    | token hscan => exact absurd hgap (not_isGap_of_scan hscan)
  | @token start c tail more t ls stop rest hscan hrest ih =>
    have hgap := not_isGap_of_scan hscan
    obtain ⟨c', cs', rfl, hc, hcs⟩ := List.map_eq_cons_iff.mp hletters
    cases h' with
    | gap hgap' => exact absurd (eq_of_isGap hgap' hc.symm ▸ hgap') hgap
    | @token _ _ tail' more' _ _ _ _ _ h' =>
      cases hls with
      | cons hhead htail =>
        have hwritten := written_take hscan
        rw [List.take_left] at hwritten
        have hkept (b : Nat) (hb : start ≤ b) (hlt : b < start + Text.byteLength (c :: tail))
            (hkeep : keeps b) : Lexeme.Keeps ⟨t, start, c :: tail⟩ b := by
          obtain ⟨l, hl, hkeep⟩ := hkeeps b hb hkeep
          rcases List.mem_cons.mp hl with rfl | hl
          · exact hkeep
          · obtain ⟨k, -, hstart, -⟩ := hkeep
            have hafter := (hrest.inBounds l hl).1
            omega
        have hfirst := ((recasedFrom_keeps_iff (l := ⟨t, start, c :: tail⟩) hwritten).mpr
          hhead).mono hkept
        rw [← List.cons_append, ← List.cons_append] at hletters ⊢
        have hmore : more'.map Char.toLower = more.map Char.toLower := by
          rw [List.map_append, List.map_append, hhead.letters] at hletters
          exact List.append_cancel_left hletters
        refine hfirst.append (ih ?_ hmore htail (fun b hb hkeep => ?_) hend)
        · rwa [← byteLength_of_letters hhead.letters]
        · obtain ⟨l, hl, hkeep⟩ := hkeeps b (by omega) hkeep
          rcases List.mem_cons.mp hl with rfl | hl
          · obtain ⟨k, -, -, hstop⟩ := hkeep
            exact absurd hstop (Nat.not_lt_of_le hb)
          · exact ⟨l, hl, hkeep⟩

end Cuts

/-- Read characters are the lexemes that are read of them. -/
theorem lexemesFrom_of_cuts {stop : Nat} {ls : List Lexeme} (h : Cuts start cs ls stop []) :
    lexemesFrom start cs = .ok ls := by
  generalize hend : ([] : List Char) = rest at h
  induction h with
  | done =>
    subst hend
    rw [lexemesFrom]
  | gap hgap _ ih =>
    rw [lexemesFrom, if_pos hgap]
    exact ih hend
  | token hscan _ ih =>
    rw [lexemesFrom, if_neg (not_isGap_of_scan hscan), hscan]
    simp only [List.take_left, List.drop_left, ih hend]
    rfl

theorem cuts_of_tokenize {text : String} {ls : List Lexeme} (h : tokenize text = .ok ls) :
    ∃ stop, Cuts 0 text.toList ls stop [] := by
  have hall : CutsAll 0 text.toList (tokenize text) := cutsAll_lexemesFrom 0 text.toList
  rwa [h] at hall

end

/-- **The lexemes of a recased text are recased.** -/
theorem Recased.tokenize {text text' : String} {ls : List Lexeme} (h : Recased text text')
    (hls : tokenize text = .ok ls) :
    ∃ ls', Query.tokenize text' = .ok ls' ∧ List.Forall₂ Lexeme.Recased ls ls' := by
  obtain ⟨ms, hms, hr⟩ := h
  obtain rfl := Except.ok.inj (hls.symm.trans hms)
  obtain ⟨stop, hcuts⟩ := cuts_of_tokenize hls
  obtain ⟨ls', rest', hcuts', hrest, hrecased⟩ := hcuts.recased (fun l hl b hb => ⟨l, hl, hb⟩) hr
  cases hrest
  exact ⟨ls', lexemesFrom_of_cuts hcuts', hrecased⟩

/-- **A text with recased tokens is recased.** -/
theorem recased_of_tokenize {text text' : String} {ls ls' : List Lexeme}
    (h : tokenize text = .ok ls) (h' : tokenize text' = .ok ls')
    (hletters : text'.toList.map Char.toLower = text.toList.map Char.toLower)
    (hls : List.Forall₂ (fun l l' => l.token.Recases l.text l'.text) ls ls') :
    Recased text text' := by
  obtain ⟨stop, hcuts⟩ := cuts_of_tokenize h
  obtain ⟨stop', hcuts'⟩ := cuts_of_tokenize h'
  exact ⟨ls, h, hcuts.recasedFrom hcuts' hletters hls fun b _ hb => hb⟩

end TreeQuery.Query
