import Mathlib.Data.List.Basic
import TreeQuery.FileSystem.RawPath
import TreeQuery.Path.Relative

/-!
# Names that are no text

A directory lists names of bytes, and a walk reads them as text whatever they are. No other bytes
are read as an ASCII character than the one byte that it has in UTF-8 (`Text.front_ascii`). So a
name does not turn into something else: **`ordinary_decodeLossy`** says that what names an entry of
a directory can stand in a path. Different names may become the same text.
-/

namespace TreeQuery

/-! ## Characters of one byte -/

namespace Text

theorem toNat_ofNat_of_isValidChar {n : Nat} (h : n.isValidChar) : (Char.ofNat n).toNat = n := by
  rw [Char.ofNat, dif_pos h]
  rfl

/-- A character with a number of more than seven bits is none of ASCII. -/
theorem toNat_ofNat_of_le {n : Nat} (h : 0x80 ≤ n) :
    (Char.ofNat n).toNat = 0 ∨ 0x80 ≤ (Char.ofNat n).toNat := by
  by_cases hvalid : n.isValidChar
  · rw [toNat_ofNat_of_isValidChar hvalid]
    exact .inr h
  · exact .inl (by simp [Char.ofNat, hvalid])

variable {b c d e : UInt8} {rest bytes : List UInt8} {x : Char}

theorem two_le (h : 0xC2 ≤ b ∧ b ≤ 0xDF) : 0x80 ≤ b.toNat % 32 * 64 + tailBits c := by
  have hlow := UInt8.le_iff_toNat_le.mp h.1
  have hhigh := UInt8.le_iff_toNat_le.mp h.2
  simp only [UInt8.reduceToNat] at hlow hhigh
  omega

theorem three_le (h : 0xE0 ≤ b ∧ b ≤ 0xEF) (hc : isSecondOfThree b c) :
    0x80 ≤ (b.toNat % 16 * 64 + tailBits c) * 64 + tailBits d := by
  have hlow := UInt8.le_iff_toNat_le.mp h.1
  have hhigh := UInt8.le_iff_toNat_le.mp h.2
  unfold isSecondOfThree at hc
  unfold tailBits
  by_cases hb : b = 0xE0
  · -- then the second byte is large
    simp only [hb, beq_self_eq_true, if_true, Bool.and_eq_true, decide_eq_true_eq,
      UInt8.le_iff_toNat_le, UInt8.reduceToNat] at hc ⊢
    omega
  · have hne : b.toNat ≠ 0xE0 := fun heq => hb (UInt8.toNat_inj.mp heq)
    simp only [UInt8.reduceToNat] at hlow hhigh
    omega

theorem four_le (h : 0xF0 ≤ b ∧ b ≤ 0xF4) (hc : isSecondOfFour b c) :
    0x80 ≤ ((b.toNat % 8 * 64 + tailBits c) * 64 + tailBits d) * 64 + tailBits e := by
  have hlow := UInt8.le_iff_toNat_le.mp h.1
  have hhigh := UInt8.le_iff_toNat_le.mp h.2
  unfold isSecondOfFour at hc
  unfold tailBits
  by_cases hb : b = 0xF0
  · simp only [hb, beq_self_eq_true, if_true, Bool.and_eq_true, decide_eq_true_eq,
      UInt8.le_iff_toNat_le, UInt8.reduceToNat] at hc ⊢
    omega
  · have hne : b.toNat ≠ 0xF0 := fun heq => hb (UInt8.toNat_inj.mp heq)
    simp only [UInt8.reduceToNat] at hlow hhigh
    omega

/-- **What the front of some bytes can be**: one byte that is a character, no character, or a
character of several bytes, which has a large number. -/
theorem front_cases (b : UInt8) (rest : List UInt8) :
    b < 0x80 ∧ front b rest = ⟨some (Char.ofNat b.toNat), 0⟩ ∨ (front b rest).char? = none ∨
      ∃ n, 0x80 ≤ n ∧ (front b rest).char? = some (Char.ofNat n) := by
  unfold front
  by_cases hone : b < 0x80
  · exact .inl ⟨hone, if_pos hone⟩
  rw [if_neg hone]
  right
  by_cases htwo : 0xC2 ≤ b ∧ b ≤ 0xDF
  · rw [if_pos htwo]
    cases rest with
    | nil => exact .inl rfl
    | cons c _ =>
      dsimp only
      split
      · exact .inr ⟨_, two_le htwo, rfl⟩
      · exact .inl rfl
  rw [if_neg htwo]
  by_cases hthree : 0xE0 ≤ b ∧ b ≤ 0xEF
  · rw [if_pos hthree]
    rcases rest with _ | ⟨c, _ | ⟨d, _⟩⟩ <;> dsimp only
    · exact .inl rfl
    · split <;> exact .inl rfl
    · split
      · rename_i hsecond
        split
        · exact .inr ⟨_, three_le hthree hsecond, rfl⟩
        · exact .inl rfl
      · exact .inl rfl
  rw [if_neg hthree]
  by_cases hfour : 0xF0 ≤ b ∧ b ≤ 0xF4
  · rw [if_pos hfour]
    rcases rest with _ | ⟨c, _ | ⟨d, _ | ⟨e, _⟩⟩⟩ <;> dsimp only
    · exact .inl rfl
    · split <;> exact .inl rfl
    · split
      · split <;> exact .inl rfl
      · exact .inl rfl
    · split
      · rename_i hsecond
        split
        · split
          · exact .inr ⟨_, four_le hfour hsecond, rfl⟩
          · exact .inl rfl
        · exact .inl rfl
      · exact .inl rfl
  · rw [if_neg hfour]
    exact .inl rfl

/-- **An ASCII character stands for its own byte only.** -/
theorem front_ascii (h : (front b rest).char? = some x) (hpos : 0 < x.toNat)
    (hlt : x.toNat < 0x80) : b.toNat = x.toNat ∧ (front b rest).more = 0 := by
  rcases front_cases b rest with ⟨hone, hfront⟩ | hnone | ⟨n, hn, hlarge⟩
  · rw [hfront] at h ⊢
    obtain rfl := Option.some.inj h
    have hb := UInt8.lt_iff_toNat_lt.mp hone
    simp only [UInt8.reduceToNat] at hb
    rw [toNat_ofNat_of_isValidChar (.inl (by omega))]
    exact ⟨rfl, rfl⟩
  · cases hnone.symm.trans h
  · obtain rfl := Option.some.inj (hlarge.symm.trans h)
    rcases toNat_ofNat_of_le hn with hzero | hle <;> omega

/-! ## Texts -/

theorem toList_decodeLossy (bytes : List UInt8) :
    (decodeLossy bytes).toList = (fronts bytes).map fun c => c.getD replacement :=
  String.toList_ofList

theorem fronts_cons (b : UInt8) (rest : List UInt8) :
    fronts (b :: rest) = (front b rest).char? :: fronts (rest.drop (front b rest).more) := by
  rw [fronts]

/-- An ASCII character of the text is not a replacement. -/
theorem eq_some_of_getD {c? : Option Char} (h : c?.getD replacement = x) (hlt : x.toNat < 0x80) :
    c? = some x := by
  cases c? with
  | none =>
    obtain rfl : replacement = x := h
    exact absurd hlt (by decide)
  | some c => exact congrArg some h

theorem mem_of_mem_decodeLossy (hx : x ∈ (decodeLossy bytes).toList) (hpos : 0 < x.toNat)
    (hlt : x.toNat < 0x80) : ∃ b ∈ bytes, b.toNat = x.toNat := by
  rw [toList_decodeLossy] at hx
  fun_induction fronts bytes with
  | case1 => cases hx
  | case2 b rest ih =>
    rcases List.mem_cons.mp hx with hfirst | hmore
    · obtain ⟨hb, -⟩ := front_ascii (eq_some_of_getD hfirst.symm hlt) hpos hlt
      exact ⟨b, List.mem_cons_self, hb⟩
    · obtain ⟨c, hc, hcx⟩ := ih hmore
      exact ⟨c, List.mem_cons_of_mem _ (List.mem_of_mem_drop hc), hcx⟩

/-- An ASCII text is that of its own bytes only. -/
theorem map_toNat_of_decodeLossy {xs : List Char} (h : (decodeLossy bytes).toList = xs)
    (hxs : ∀ x ∈ xs, 0 < x.toNat ∧ x.toNat < 0x80) :
    bytes.map UInt8.toNat = xs.map Char.toNat := by
  rw [toList_decodeLossy] at h
  fun_induction fronts bytes generalizing xs with
  | case1 => rw [← h]; rfl
  | case2 b rest ih =>
    subst h
    obtain ⟨⟨hpos, hlt⟩, hxs⟩ := List.forall_mem_cons.mp hxs
    obtain ⟨hb, hmore⟩ := front_ascii (eq_some_of_getD rfl hlt) hpos hlt
    have hrest := ih rfl hxs
    rw [hmore, List.drop_zero] at hrest
    rw [List.map_cons, List.map_cons, List.map_cons, hb, hmore, List.drop_zero, hrest]

theorem eq_of_map_toNat {bytes bytes' : List UInt8}
    (h : bytes.map UInt8.toNat = bytes'.map UInt8.toNat) : bytes = bytes' :=
  List.map_injective_iff.mpr (fun _ _ => UInt8.toNat_inj.mp) h

end Text

/-! ## Names -/

/-- A name that a directory can list: not empty, neither `.` nor `..`, and without a slash. -/
def IsRawName (name : RawName) : Prop :=
  name ≠ [] ∧ name ≠ [dotByte] ∧ name ≠ [dotByte, dotByte] ∧ slashByte ∉ name

instance (name : RawName) : Decidable (IsRawName name) := by
  unfold IsRawName; infer_instance

/-- **The text of a name can stand in a path.** -/
theorem ordinary_decodeLossy {name : RawName} (h : IsRawName name) :
    IsOrdinary (Text.decodeLossy name).toList := by
  obtain ⟨hne, hdot, hdots, hslash⟩ := h
  refine ⟨fun hnil => ?_, fun htext => ?_, fun htext => ?_, fun hmem => ?_⟩
  · cases name with
    | nil => exact hne rfl
    | cons b rest =>
      rw [Text.toList_decodeLossy, Text.fronts_cons] at hnil
      cases hnil
  · exact hdot (Text.eq_of_map_toNat (Text.map_toNat_of_decodeLossy htext (by simp)))
  · exact hdots (Text.eq_of_map_toNat (Text.map_toNat_of_decodeLossy htext (by simp)))
  · obtain ⟨b, hb, hbyte⟩ := Text.mem_of_mem_decodeLossy hmem (by decide) (by decide)
    obtain rfl : b = slashByte := UInt8.toNat_inj.mp hbyte
    exact hslash hb

end TreeQuery
