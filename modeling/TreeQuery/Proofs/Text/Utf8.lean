import Mathlib.Data.String.Basic
import TreeQuery.Text.Utf8

/-!
# The bytes of a text

A text is written as the bytes of its characters, one character after the other (`encode_eq`). What
is read from the front of the bytes of a character is that character (`front_utf8EncodeChar`), so
**`decode?_encode`**: reading undoes writing.

The bytes of a character are ASCII only if it is one byte long itself. So an ASCII character stands
in a text where its byte stands among the bytes, and at the end where its byte is the last.

Of two characters the one with the greater number has the greater bytes, whatever follows. So
texts are ordered like their bytes (`encode_lt_encode_iff`).
-/

namespace TreeQuery.Text

variable {c d x : Char} {rest : List UInt8} {s t : String} {n : Nat}

/-! ## Bytes of characters -/

/-- The loop that lists bytes, at any place. -/
theorem toList_loop (bytes : ByteArray) (i : Nat) (read : List UInt8) :
    ByteArray.toList.loop bytes i read = read.reverse ++ bytes.data.toList.drop i := by
  induction hn : bytes.size - i generalizing i read with
  | zero =>
    rw [ByteArray.toList.loop, if_neg (by omega), List.drop_eq_nil_of_le, List.append_nil]
    simpa [ByteArray.size_data] using Nat.sub_eq_zero_iff_le.mp hn
  | succ n ih =>
    have hi : i < bytes.data.size := by
      rw [ByteArray.size_data]
      omega
    have hget : bytes.get! i = bytes.data[i] := getElem!_pos bytes.data i hi
    have hdrop := List.drop_eq_getElem_cons (l := bytes.data.toList) hi
    rw [ByteArray.toList.loop, if_pos (by omega), ih _ _ (by omega), hget, hdrop,
      List.reverse_cons, List.append_assoc]
    rfl

/-- **The bytes of a text** are those of its characters. -/
theorem encode_eq (s : String) : encode s = s.toList.flatMap String.utf8EncodeChar := by
  have hbytes : s.toUTF8 = (s.toList.flatMap String.utf8EncodeChar).toByteArray :=
    String.utf8Encode_toList.symm
  rw [encode, ByteArray.toList, toList_loop, hbytes, List.toList_data_toByteArray]
  rfl

theorem encode_append (s t : String) : encode (s ++ t) = encode s ++ encode t := by
  rw [encode_eq, encode_eq, encode_eq, String.toList_append, List.flatMap_append]

theorem encode_newline : encode "\n" = [0x0A] := by
  rw [encode_eq]
  rfl

/-! ## Reading a character -/

theorem toNat_byte (h : n < 256) : (UInt8.ofNat n).toNat = n :=
  UInt8.toNat_ofNat_of_lt' h

theorem isTail_ofNat (n : Nat) : isTail (UInt8.ofNat (n % 64 + 128)) := by
  simp only [isTail, Bool.and_eq_true, decide_eq_true_eq, UInt8.le_iff_toNat_le,
    UInt8.toNat_ofNat', UInt8.reduceToNat]
  omega

theorem tailBits_ofNat (n : Nat) : tailBits (UInt8.ofNat (n % 64 + 128)) = n % 64 := by
  simp only [tailBits, UInt8.toNat_ofNat']
  omega

theorem front_one (h : n < 0x80) : front (UInt8.ofNat n) rest = ⟨some (Char.ofNat n), 0⟩ := by
  have hbyte : (UInt8.ofNat n).toNat = n := toNat_byte (by omega)
  unfold front
  rw [if_pos (UInt8.lt_iff_toNat_lt.mpr (by rwa [hbyte])), hbyte]

theorem front_two (h : 0x80 ≤ n) (hn : n < 0x800) :
    front (UInt8.ofNat (n / 64 % 32 + 192)) (UInt8.ofNat (n % 64 + 128) :: rest) =
      ⟨some (Char.ofNat n), 1⟩ := by
  have hlead : (UInt8.ofNat (n / 64 % 32 + 192)).toNat = n / 64 % 32 + 192 :=
    toNat_byte (by omega)
  have hnumber : (n / 64 % 32 + 192) % 32 * 64 + n % 64 = n := by omega
  unfold front
  rw [if_neg, if_pos]
  · simp only [isTail_ofNat, if_true, tailBits_ofNat, hlead, hnumber]
  all_goals
    simp only [UInt8.lt_iff_toNat_lt, UInt8.le_iff_toNat_le, hlead, UInt8.reduceToNat]
    omega

/-- The first two bytes go together, since no character has the numbers in the gap. -/
theorem isSecondOfThree_ofNat (h : 0x800 ≤ n) (hn : n < 0x10000)
    (hgap : n < 0xD800 ∨ 0xDFFF < n) :
    isSecondOfThree (UInt8.ofNat (n / 4096 % 16 + 224)) (UInt8.ofNat (n / 64 % 64 + 128)) := by
  have hlead : (UInt8.ofNat (n / 4096 % 16 + 224)).toNat = n / 4096 % 16 + 224 :=
    toNat_byte (by omega)
  have hsecond : (UInt8.ofNat (n / 64 % 64 + 128)).toNat = n / 64 % 64 + 128 :=
    toNat_byte (by omega)
  simp only [isSecondOfThree, isTail, beq_iff_eq, ← UInt8.toNat_inj, UInt8.le_iff_toNat_le, hlead,
    hsecond, UInt8.reduceToNat]
  split
  · simp only [Bool.and_eq_true, decide_eq_true_eq]
    omega
  · split <;> simp only [Bool.and_eq_true, decide_eq_true_eq] <;> omega

theorem front_three (h : 0x800 ≤ n) (hn : n < 0x10000) (hgap : n < 0xD800 ∨ 0xDFFF < n) :
    front (UInt8.ofNat (n / 4096 % 16 + 224))
        (UInt8.ofNat (n / 64 % 64 + 128) :: UInt8.ofNat (n % 64 + 128) :: rest) =
      ⟨some (Char.ofNat n), 2⟩ := by
  have hlead : (UInt8.ofNat (n / 4096 % 16 + 224)).toNat = n / 4096 % 16 + 224 :=
    toNat_byte (by omega)
  have hnumber : ((n / 4096 % 16 + 224) % 16 * 64 + n / 64 % 64) * 64 + n % 64 = n := by omega
  unfold front
  rw [if_neg, if_neg, if_pos]
  · simp only [isSecondOfThree_ofNat h hn hgap, isTail_ofNat, if_true, tailBits_ofNat, hlead,
      hnumber]
  all_goals
    simp only [UInt8.lt_iff_toNat_lt, UInt8.le_iff_toNat_le, hlead, UInt8.reduceToNat]
    omega

theorem isSecondOfFour_ofNat (h : 0x10000 ≤ n) (hn : n < 0x110000) :
    isSecondOfFour (UInt8.ofNat (n / 262144 % 8 + 240)) (UInt8.ofNat (n / 4096 % 64 + 128)) := by
  have hlead : (UInt8.ofNat (n / 262144 % 8 + 240)).toNat = n / 262144 % 8 + 240 :=
    toNat_byte (by omega)
  have hsecond : (UInt8.ofNat (n / 4096 % 64 + 128)).toNat = n / 4096 % 64 + 128 :=
    toNat_byte (by omega)
  simp only [isSecondOfFour, isTail, beq_iff_eq, ← UInt8.toNat_inj, UInt8.le_iff_toNat_le, hlead,
    hsecond, UInt8.reduceToNat]
  split
  · simp only [Bool.and_eq_true, decide_eq_true_eq]
    omega
  · split <;> simp only [Bool.and_eq_true, decide_eq_true_eq] <;> omega

theorem front_four (h : 0x10000 ≤ n) (hn : n < 0x110000) :
    front (UInt8.ofNat (n / 262144 % 8 + 240))
        (UInt8.ofNat (n / 4096 % 64 + 128) :: UInt8.ofNat (n / 64 % 64 + 128) ::
          UInt8.ofNat (n % 64 + 128) :: rest) =
      ⟨some (Char.ofNat n), 3⟩ := by
  have hlead : (UInt8.ofNat (n / 262144 % 8 + 240)).toNat = n / 262144 % 8 + 240 :=
    toNat_byte (by omega)
  have hnumber : (((n / 262144 % 8 + 240) % 8 * 64 + n / 4096 % 64) * 64 + n / 64 % 64) * 64 +
      n % 64 = n := by
    omega
  unfold front
  rw [if_neg, if_neg, if_neg, if_pos]
  · simp only [isSecondOfFour_ofNat h hn, isTail_ofNat, if_true, tailBits_ofNat, hlead, hnumber]
  all_goals
    simp only [UInt8.lt_iff_toNat_lt, UInt8.le_iff_toNat_le, hlead, UInt8.reduceToNat]
    omega

/-- **The bytes of a character are read as that character.** -/
theorem front_utf8EncodeChar (c : Char) (rest : List UInt8) :
    ∃ b tail, String.utf8EncodeChar c = b :: tail ∧
      front b (tail ++ rest) = ⟨some c, tail.length⟩ := by
  have hchar : Char.ofNat c.val.toNat = c := Char.ofNat_toNat c
  have hvalid : c.val.toNat < 0xD800 ∨ 0xDFFF < c.val.toNat ∧ c.val.toNat < 0x110000 := c.valid
  unfold String.utf8EncodeChar
  generalize c.val.toNat = n at hchar hvalid
  subst hchar
  simp only
  split
  · exact ⟨_, _, rfl, front_one (by omega)⟩
  · split
    · exact ⟨_, _, rfl, front_two (by omega) (by omega)⟩
    · split
      · exact ⟨_, _, rfl, front_three (by omega) (by omega) (by omega)⟩
      · exact ⟨_, _, rfl, front_four (by omega) (by omega)⟩

/-! ## Reading a text -/

theorem fronts_flatMap (cs : List Char) :
    fronts (cs.flatMap String.utf8EncodeChar) = cs.map some := by
  induction cs with
  | nil => rw [List.flatMap_nil, fronts, List.map_nil]
  | cons c cs ih =>
    obtain ⟨b, tail, hbytes, hfront⟩ :=
      front_utf8EncodeChar c (cs.flatMap String.utf8EncodeChar)
    rw [List.flatMap_cons, hbytes, List.cons_append, fronts, hfront, List.drop_left, ih,
      List.map_cons]

/-- **Reading undoes writing.** -/
theorem decode?_encode (s : String) : decode? (encode s) = some s := by
  have hall : ∀ cs : List Char, (cs.map some).mapM id = some cs := by
    intro cs
    induction cs with
    | nil => rfl
    | cons c cs ih => simp [ih]
  rw [decode?, encode_eq, fronts_flatMap, hall, Option.map_some, String.ofList_toList]

theorem encode_inj : encode s = encode t ↔ s = t := by
  refine ⟨fun h => Option.some.inj ?_, congrArg encode⟩
  rw [← decode?_encode s, h, decode?_encode]

/-- A character is one byte of ASCII, or none of its bytes is. -/
theorem utf8EncodeChar_cases (c : Char) :
    c.toNat < 0x80 ∧ String.utf8EncodeChar c = [UInt8.ofNat c.toNat] ∨
      0x80 ≤ c.toNat ∧ ∀ b ∈ String.utf8EncodeChar c, 0x80 ≤ b.toNat := by
  have hnumber : c.val.toNat = c.toNat := rfl
  unfold String.utf8EncodeChar
  rw [hnumber]
  simp only
  split
  · exact .inl ⟨by omega, rfl⟩
  · refine .inr ⟨by omega, ?_⟩
    -- the first byte has its high bits set, the others are continuations
    have hlead : ∀ k m, 128 ≤ m → k + m < 256 → 0x80 ≤ (UInt8.ofNat (k + m)).toNat := by
      intro k m hm hk
      rw [toNat_byte hk]
      omega
    split
    · simp only [List.forall_mem_cons]
      exact ⟨hlead _ _ (by omega) (by omega), hlead _ _ (by omega) (by omega), by simp⟩
    · split
      · simp only [List.forall_mem_cons]
        exact ⟨hlead _ _ (by omega) (by omega), hlead _ _ (by omega) (by omega),
          hlead _ _ (by omega) (by omega), by simp⟩
      · simp only [List.forall_mem_cons]
        exact ⟨hlead _ _ (by omega) (by omega), hlead _ _ (by omega) (by omega),
          hlead _ _ (by omega) (by omega), hlead _ _ (by omega) (by omega), by simp⟩

theorem mem_utf8EncodeChar_iff (hx : x.toNat < 0x80) :
    UInt8.ofNat x.toNat ∈ String.utf8EncodeChar c ↔ c = x := by
  have hbyte : (UInt8.ofNat x.toNat).toNat = x.toNat := toNat_byte (by omega)
  rcases utf8EncodeChar_cases c with ⟨hc, hone⟩ | ⟨hc, hlarge⟩
  · rw [hone, List.mem_singleton, ← UInt8.toNat_inj, hbyte, toNat_byte (by omega), eq_comm]
    exact Char.toNat_inj
  · constructor
    · intro hmem
      have hle := hlarge _ hmem
      rw [hbyte] at hle
      omega
    · rintro rfl
      omega

/-- **A character of ASCII is where its byte is.** -/
theorem mem_encode_iff (hx : x.toNat < 0x80) : UInt8.ofNat x.toNat ∈ encode s ↔ x ∈ s.toList := by
  simp only [encode_eq, List.mem_flatMap, mem_utf8EncodeChar_iff hx, exists_eq_right]

/-- The bytes of a greater character are greater, and none begin with those of another. -/
theorem utf8EncodeChar_append_lt (h : c < d) (xs ys : List UInt8) :
    String.utf8EncodeChar c ++ xs < String.utf8EncodeChar d ++ ys := by
  have hlt : c.val.toNat < d.val.toNat := h
  have hc : c.val.toNat < 0xD800 ∨ 0xDFFF < c.val.toNat ∧ c.val.toNat < 0x110000 := c.valid
  have hd : d.val.toNat < 0xD800 ∨ 0xDFFF < d.val.toNat ∧ d.val.toNat < 0x110000 := d.valid
  unfold String.utf8EncodeChar
  generalize c.val.toNat = m at hlt hc
  generalize d.val.toNat = n at hlt hd
  -- the numbers differ in their last six bits, or in those before them, and so on
  have hlast : m / 64 < n / 64 ∨ m / 64 = n / 64 ∧ m % 64 < n % 64 := by omega
  have hthird : m / 64 < n / 64 →
      m / 4096 < n / 4096 ∨ m / 4096 = n / 4096 ∧ m / 64 % 64 < n / 64 % 64 := by omega
  have hsecond : m / 4096 < n / 4096 →
      m / 262144 < n / 262144 ∨ m / 262144 = n / 262144 ∧ m / 4096 % 64 < n / 4096 % 64 := by
    omega
  simp only
  split_ifs <;>
    simp (disch := omega) only [List.cons_append, List.nil_append, List.cons_lt_cons_iff,
      UInt8.lt_iff_toNat_lt, ← UInt8.toNat_inj, toNat_byte, Nat.mod_eq_of_lt] <;> omega

theorem flatMap_lt_flatMap {cs ds : List Char} (h : cs < ds) :
    cs.flatMap String.utf8EncodeChar < ds.flatMap String.utf8EncodeChar := by
  induction h with
  | @nil d ds =>
    obtain ⟨b, bs, hd⟩ := List.exists_cons_of_ne_nil (String.utf8EncodeChar_ne_nil (c := d))
    rw [List.flatMap_nil, List.flatMap_cons, hd]
    exact .nil
  | cons _ ih =>
    rw [List.flatMap_cons, List.flatMap_cons]
    exact List.Lex.append_left _ ih _
  | rel h => exact utf8EncodeChar_append_lt h _ _

/-- **Texts are ordered as their bytes are.** -/
theorem encode_lt_encode_iff : encode s < encode t ↔ s < t := by
  have hmono : ∀ {s t : String}, s < t → encode s < encode t := fun h => by
    rw [encode_eq, encode_eq]
    exact flatMap_lt_flatMap (String.lt_iff_toList_lt.mp h)
  refine ⟨fun h => ?_, hmono⟩
  rcases lt_trichotomy s t with hlt | rfl | hgt
  · exact hlt
  · exact absurd h (List.lt_irrefl _)
  · exact absurd h (List.lt_asymm (hmono hgt))

end TreeQuery.Text
