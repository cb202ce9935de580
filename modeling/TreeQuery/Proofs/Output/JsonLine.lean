import Mathlib.Data.Int.Cast.Lemmas
import Mathlib.Data.List.Forall2
import Mathlib.Data.List.TakeWhile
import TreeQuery.Output.Format
import TreeQuery.Proofs.Output.JsonReader
import TreeQuery.Proofs.Text.Utf8

/-!
# Results as lines of JSON

Each function that writes a part of a result has its counterpart in the reader: what `jsonText`
writes is read as the text (`writtenAs_jsonText`), what `jsonInteger` writes as the number
(`writtenAs_jsonInteger`), and so on up to the object of the whole result (`read?_jsonObject`).

`Shows v j` says what a reader is shown of a value. Values of different kinds are shown
differently, so nothing is lost (`leftUnique_shows`). Line feeds are always written as escapes.

**`render_json_lossless`**: what is printed is one line, and the result can be read off that line.
-/

namespace TreeQuery.Output

open Database Json

/-! ## Texts -/

section

variable {c : Char} {cs rest : List Char} {n : Nat}

theorem code?_hexDigit (h : n < 0x20) :
    code? ['0', '0', hexDigit (n / 16), hexDigit (n % 16)] = some n := by
  have hall : ∀ n < 0x20, code? ['0', '0', hexDigit (n / 16), hexDigit (n % 16)] = some n := by
    decide
  exact hall n h

/-- **How a character is written**: behind a backslash, by its code, or as it is. -/
theorem jsonChar_cases (c : Char) :
    (∃ e, jsonChar c = ['\\', e] ∧ escape? e = some c) ∨
      (∃ x y, jsonChar c = ['\\', 'u', '0', '0', x, y] ∧
        code? ['0', '0', x, y] = some c.toNat ∧ c.toNat < 0x20) ∨
      jsonChar c = [c] ∧ c ≠ '"' ∧ c ≠ '\\' ∧ ¬ c.toNat < 0x20 := by
  unfold jsonChar
  split
  iterate 7 exact .inl ⟨_, rfl, rfl⟩
  · rename_i hquote hbackslash _ _ _ _ _
    split
    · rename_i hcontrol
      exact .inr (.inl ⟨_, _, rfl, code?_hexDigit hcontrol, hcontrol⟩)
    · rename_i hcontrol
      exact .inr (.inr ⟨rfl, hquote, hbackslash, hcontrol⟩)

/-- **A written character is one piece.** -/
theorem exists_scan_jsonChar (c : Char) (rest : List Char) : ∃ d ds p,
    jsonChar c = d :: ds ∧ d ≠ '"' ∧ Piece.scan d (ds ++ rest) = some (p, ds.length) ∧
      ∀ ps, chars? (p :: ps) = (chars? ps).map (c :: ·) := by
  rcases jsonChar_cases c with ⟨e, hjson, he⟩ | ⟨x, y, hjson, hcode, hcontrol⟩ |
    ⟨hjson, hquote, hbackslash, hcontrol⟩
  · refine ⟨_, _, .char c, hjson, by decide, ?_, fun _ => rfl⟩
    unfold Piece.scan
    rw [if_pos rfl, List.singleton_append]
    split
    · rename_i heq
      obtain rfl := (List.cons.inj heq).1
      cases he
    · rename_i heq
      obtain ⟨rfl, -⟩ := List.cons.inj heq
      rw [he]
      rfl
    · rename_i heq
      cases heq
  · refine ⟨_, _, .code c.toNat, hjson, by decide, ?_, fun ps => ?_⟩
    · simp only [Piece.scan, if_true, List.cons_append, hcode, Option.map_some]
      rfl
    · have hhigh : isHighHalf c.toNat = false := by simp [isHighHalf]; omega
      have hlow : isLowHalf c.toNat = false := by simp [isLowHalf]; omega
      rw [chars?.eq_def]
      simp [hhigh, hlow]
  · refine ⟨_, _, .char c, hjson, hquote, ?_, fun _ => rfl⟩
    unfold Piece.scan
    rw [if_neg hbackslash, if_neg hcontrol]
    rfl

/-- **What is written between the quotes is read back.** -/
theorem exists_pieces? (cs rest : List Char) : ∃ ps,
    pieces? (cs.flatMap jsonChar ++ '"' :: rest) =
        some (ps, (cs.flatMap jsonChar).length + 1) ∧ chars? ps = some cs := by
  induction cs with
  | nil =>
    refine ⟨[], ?_, rfl⟩
    rw [List.flatMap_nil, List.nil_append, pieces?, if_pos rfl, List.length_nil]
  | cons c cs ih =>
    obtain ⟨ps, hpieces, hchars⟩ := ih
    obtain ⟨d, ds, p, hjson, hd, hscan, hcons⟩ :=
      exists_scan_jsonChar c (cs.flatMap jsonChar ++ '"' :: rest)
    refine ⟨p :: ps, ?_, by rw [hcons, hchars, Option.map_some]⟩
    rw [List.flatMap_cons, hjson, List.append_assoc, List.cons_append, pieces?, if_neg hd, hscan]
    simp only [List.drop_left, hpieces, Option.map_some, List.length_append, List.length_cons,
      Nat.add_assoc]

theorem quotes_flatMap (s : String) : Quotes (s.toList.flatMap jsonChar ++ ['"']) s := by
  intro rest
  obtain ⟨ps, hpieces, hchars⟩ := exists_pieces? s.toList rest
  refine ⟨ps, ?_, hchars⟩
  rw [List.append_assoc, List.singleton_append, hpieces, List.length_append,
    List.length_singleton]

theorem writtenAs_jsonText (s : String) : WrittenAs (jsonText s) (.string s) :=
  (quotes_flatMap s).writtenAs

theorem readFrom_jsonText {stage stage' : Stage} {frames frames' : List Frame} {s : String}
    (hstep : step stage frames (.string s) = some (stage', frames')) :
    readFrom stage frames (jsonText s ++ rest) = readFrom stage' frames' rest :=
  (quotes_flatMap s).readFrom_eq hstep

/-! ## Numbers -/

/-- Only zero starts with a zero. -/
theorem head?_toDigits_ne (h : n ≠ 0) : (Nat.toDigits 10 n).head? ≠ some '0' := by
  induction n using Nat.strongRecOn with
  | ind n ih =>
    by_cases hlt : n < 10
    · rw [Nat.toDigits_of_lt_base hlt]
      have hall : ∀ n < 10, n ≠ 0 → [n.digitChar].head? ≠ some '0' := by decide
      exact hall n hlt h
    · rw [Nat.toDigits_of_base_le (by decide) (by omega),
        List.head?_append_of_ne_nil _ Nat.toDigits_ne_nil]
      exact ih (n / 10) (by omega) (by omega)

/-- The digits of a number are read back, to their end. -/
theorem whole?_toDigits (n : Nat) : whole? (Nat.toDigits 10 n) = some (Nat.toDigits 10 n, []) := by
  have hdigits : (Nat.toDigits 10 n).takeWhile Char.isDigit = Nat.toDigits 10 n :=
    List.takeWhile_eq_self_iff.mpr fun d hd =>
      Nat.isDigit_of_mem_toDigits (by decide) (by decide) hd
  have hzero : ¬ ((Nat.toDigits 10 n).head? = some '0' ∧ Nat.toDigits 10 n ≠ ['0']) := by
    rintro ⟨hhead, hne⟩
    by_cases hn : n = 0
    · exact hne (by rw [hn]; rfl)
    · exact head?_toDigits_ne hn hhead
  rw [whole?]
  simp only [hdigits, Nat.toDigits_ne_nil, hzero, or_self, if_false, List.drop_length]

theorem toList_toString (n : Nat) : (toString n).toList = Nat.toDigits 10 n := by
  rw [Nat.toString_eq_ofList_toDigits, String.toList_ofList]

theorem jsonInteger_eq (n : Int) :
    jsonInteger n =
      if n < 0 then '-' :: Nat.toDigits 10 n.natAbs else Nat.toDigits 10 n.natAbs := by
  cases n with
  | ofNat m =>
    have hneg : ¬ Int.ofNat m < 0 := (Int.natCast_nonneg m).not_gt
    rw [if_neg hneg]
    exact toList_toString m
  | negSucc m =>
    have htext : toString (Int.negSucc m) = "-" ++ toString (m + 1) := rfl
    rw [jsonInteger, htext, String.toList_append, toList_toString, if_pos (Int.negSucc_lt_zero m)]
    rfl

/-- The digits of a number, behind a minus or not. -/
theorem number?_toDigits (n : Nat) :
    number? (Nat.toDigits 10 n) = some (n : ℚ) ∧
      number? ('-' :: Nat.toDigits 10 n) = some (-n : ℚ) := by
  have hhead : (Nat.toDigits 10 n).head? ≠ some '-' := by
    intro hhead
    have hdigit := Nat.isDigit_of_mem_toDigits (by decide) (by decide) (List.mem_of_mem_head? hhead)
    cases hdigit
  have hvalue : (Nat.ofDigitChars 10 (Nat.toDigits 10 n ++ []) 0 : ℚ) *
      10 ^ ((0 : Int) - ([] : List Char).length) = n := by
    rw [List.append_nil, Nat.ofDigitChars_ten_toDigits, List.length_nil, Nat.cast_zero, sub_self,
      zpow_zero, mul_one]
  constructor
  · simp only [number?, if_neg hhead, whole?_toDigits, fraction?, exponent?, Option.bind_eq_bind,
      Option.bind_some, hvalue]
    rfl
  · simp only [number?, List.head?_cons, if_true, List.tail_cons, whole?_toDigits, fraction?,
      exponent?, Option.bind_eq_bind, Option.bind_some, hvalue]
    rfl

/-- **A whole number is read back.** -/
theorem number?_jsonInteger (n : Int) : number? (jsonInteger n) = some (n : ℚ) := by
  obtain ⟨hpos, hneg⟩ := number?_toDigits n.natAbs
  rw [jsonInteger_eq]
  split
  · rename_i hn
    rw [hneg, ← Int.cast_natCast, Int.ofNat_natAbs_of_nonpos (le_of_lt hn), Int.cast_neg, neg_neg]
  · rename_i hn
    rw [hpos, ← Int.cast_natCast, Int.natAbs_of_nonneg (not_lt.mp hn)]

theorem isPlain_of_mem_jsonInteger {n : Int} {c : Char} (h : c ∈ jsonInteger n) : isPlain c := by
  rw [jsonInteger_eq] at h
  have hdigit : ∀ c ∈ Nat.toDigits 10 n.natAbs, isPlain c := by
    intro c hc
    have hc := Nat.isDigit_of_mem_toDigits (by decide) (by decide) hc
    simp [isPlain, Char.isAlphanum, hc]
  split at h
  · rcases List.mem_cons.mp h with rfl | h
    · rfl
    · exact hdigit c h
  · exact hdigit c h

theorem writtenAs_jsonInteger (n : Int) : WrittenAs (jsonInteger n) (.number n) := by
  have hnumber := number?_jsonInteger n
  -- the three names are no numbers
  have hname : ∀ word, number? word = none → jsonInteger n ≠ word := by
    rintro word hword rfl
    cases hword.symm.trans hnumber
  have hplain : plain? (jsonInteger n) = some (.number n) := by
    rw [plain?, if_neg (hname _ rfl), if_neg (hname _ rfl), if_neg (hname _ rfl), hnumber]
    rfl
  have hword : ∀ d ∈ jsonInteger n, isPlain d := fun _ => isPlain_of_mem_jsonInteger
  cases hcs : jsonInteger n with
  | nil => exact absurd hcs (hname _ rfl)
  | cons c cs =>
    rw [hcs] at hplain hword
    exact .plain hword hplain

end

/-! ## Values -/

/-- **What a reader is shown of a value**: a missing value, a number, a text, or the numbers of
bytes. There is nothing for a floating-point number. -/
inductive Shows : Value → Json → Prop where
  | null : Shows .null .null
  | integer (n : Int64) : Shows (.integer n) (.number n.toInt)
  | text (s : String) : Shows (.text s) (.string s)
  | blob (bytes : List UInt8) : Shows (.blob bytes) (.array (bytes.map fun b => .number b.toNat))

variable {v v' : Value} {j : Json} {r r' : Rows}

theorem exists_shows (h : ∀ x, v ≠ .real x) : ∃ j, Shows v j := by
  cases v with
  | null => exact ⟨_, .null⟩
  | integer n => exact ⟨_, .integer n⟩
  | real x => exact absurd rfl (h x)
  | text s => exact ⟨_, .text s⟩
  | blob bytes => exact ⟨_, .blob bytes⟩

/-- **What is shown tells the value.** -/
theorem leftUnique_shows : Relator.LeftUnique Shows := by
  intro v v' j h h'
  cases h with
  | null => cases h'; rfl
  | integer n =>
    generalize hj : Json.number n.toInt = j at h'
    cases h' with
    | integer m =>
      have hnumber : (n.toInt : ℚ) = m.toInt := Json.number.inj hj
      rw [Int64.toInt_inj.mp (Int.cast_injective hnumber)]
    | _ => cases hj
  | text s => cases h'; rfl
  | blob bytes =>
    generalize hj : Json.array _ = j at h'
    cases h' with
    | blob bytes' =>
      have hinj : Function.Injective fun b : UInt8 => Json.number b.toNat := fun b b' hb =>
        UInt8.toNat_inj.mp (Nat.cast_injective (Json.number.inj hb))
      rw [List.map_injective_iff.mpr hinj (Json.array.inj hj)]
    | _ => cases hj

theorem Shows.writtenAs (h : Shows v j) : WrittenAs (jsonValue v) j := by
  cases h with
  | null =>
    have hword : ∀ d ∈ ['n', 'u', 'l', 'l'], isPlain d := by simp [isPlain, Char.isAlphanum]
    exact .plain hword rfl
  | integer n => exact writtenAs_jsonInteger n.toInt
  | text s => exact writtenAs_jsonText s
  | blob bytes =>
    refine .array (List.forall₂_map_left_iff.mpr (List.forall₂_map_right_iff.mpr
      (List.forall₂_same.mpr fun b _ => ?_)))
    have hb := writtenAs_jsonInteger b.toNat
    rw [Int.cast_natCast] at hb
    exact hb

/-! ## Results -/

/-- **What a reader is shown of a result**: the names of its columns, and its rows value by
value. -/
def ShowsRows (r : Rows) (j : Json) : Prop :=
  ∃ rows : List (List Json), List.Forall₂ (List.Forall₂ Shows) r.rows rows ∧
    j = .object [("columns", .array (r.columns.map .string)), ("rows", .array (rows.map .array))]

/-- **What is shown tells the result.** -/
theorem leftUnique_showsRows : Relator.LeftUnique ShowsRows := by
  rintro ⟨columns, rows⟩ ⟨columns', rows'⟩ j ⟨cells, hrows, rfl⟩ ⟨cells', hrows', hj⟩
  obtain ⟨hcolumns, hcells⟩ : columns.map Json.string = columns'.map .string ∧
      cells.map Json.array = cells'.map .array := by simpa using hj
  have hstring : Function.Injective Json.string := fun _ _ => Json.string.inj
  have harray : Function.Injective Json.array := fun _ _ => Json.array.inj
  obtain rfl := List.map_injective_iff.mpr hstring hcolumns
  obtain rfl := List.map_injective_iff.mpr harray hcells
  obtain rfl : rows = rows' := leftUnique_shows.forall₂.forall₂ hrows hrows'
  rfl

/-- Items that are written one by one. -/
theorem writtenAs_map {α β : Type} {xs : List α} {ys : List β} {f : α → List Char} {g : β → Json}
    (h : List.Forall₂ (fun x y => WrittenAs (f x) (g y)) xs ys) :
    WrittenAs (jsonArray (xs.map f)) (.array (ys.map g)) :=
  .array (List.forall₂_map_left_iff.mpr (List.forall₂_map_right_iff.mpr h))

theorem jsonObject_eq (r : Rows) : jsonObject r =
    '\x7b' :: (jsonText "columns" ++ ':' :: (jsonArray (r.columns.map jsonText) ++
      ',' :: (jsonText "rows" ++ ':' ::
        (jsonArray (r.rows.map fun row => jsonArray (row.map jsonValue)) ++ ['\x7d'])))) := by
  have hcolumns : "\x7b\"columns\":".toList = '\x7b' :: (jsonText "columns" ++ [':']) := by
    decide +kernel
  have hrows : ",\"rows\":".toList = ',' :: (jsonText "rows" ++ [':']) := by decide +kernel
  unfold jsonObject
  generalize jsonArray (r.columns.map jsonText) = columns
  generalize jsonArray (r.rows.map fun row => jsonArray (row.map jsonValue)) = rows
  rw [hcolumns, hrows]
  simp only [List.append_assoc, List.cons_append, List.nil_append]

theorem read?_jsonObject (h : ShowsRows r j) : read? (String.ofList (jsonObject r)) = some j := by
  obtain ⟨rows, hrows, rfl⟩ := h
  have hcolumns : WrittenAs (jsonArray (r.columns.map jsonText))
      (.array (r.columns.map .string)) :=
    writtenAs_map (List.forall₂_same.mpr fun s _ => writtenAs_jsonText s)
  have hcells : WrittenAs (jsonArray (r.rows.map fun row => jsonArray (row.map jsonValue)))
      (.array (rows.map .array)) := by
    refine writtenAs_map (hrows.imp fun row cells hrow => ?_)
    have hrow := writtenAs_map (g := id) (hrow.imp fun v j hv => hv.writtenAs)
    rwa [List.map_id] at hrow
  have hends : ∀ (c : Char) rest, ¬ isPlain c → Ends (c :: rest) := by
    rintro c rest hc d ⟨⟩
    exact hc
  rw [read?, String.toList_ofList, jsonObject_eq, readFrom_ofChar rfl rfl,
    readFrom_jsonText rfl, readFrom_ofChar rfl rfl, hcolumns.value _ _ (hends _ _ (by decide)),
    readFrom_ofChar rfl rfl, readFrom_jsonText rfl, readFrom_ofChar rfl rfl,
    hcells.value _ _ (hends _ _ (by decide)), readFrom_ofChar rfl rfl, readFrom_nil]
  rfl

/-! ## One line -/

theorem newline_not_mem_jsonChar (c : Char) : '\n' ∉ jsonChar c := by
  have hdigit : ∀ n < 0x10, '\n' ≠ hexDigit n := by decide
  unfold jsonChar
  split
  iterate 7 decide
  · rename_i hnewline _ _ _ _
    split
    · have hhigh := hdigit (c.toNat / 16) (by omega)
      have hlow := hdigit (c.toNat % 16) (by omega)
      simp [hhigh, hlow]
    · simpa using Ne.symm hnewline

theorem newline_not_mem_jsonText (s : String) : '\n' ∉ jsonText s := by
  simp [jsonText, newline_not_mem_jsonChar]

theorem newline_not_mem_jsonInteger (n : Int) : '\n' ∉ jsonInteger n := fun h =>
  absurd (isPlain_of_mem_jsonInteger h) (by decide)

theorem newline_not_mem_jsonArray {items : List (List Char)} (h : ∀ item ∈ items, '\n' ∉ item) :
    '\n' ∉ jsonArray items := by
  cases items with
  | nil => decide
  | cons cs items =>
    obtain ⟨hcs, hitems⟩ := List.forall_mem_cons.mp h
    simpa [jsonArray, flatten_intersperse_comma, hcs] using hitems

theorem newline_not_mem_jsonValue (h : ∀ x, v ≠ .real x) : '\n' ∉ jsonValue v := by
  cases v with
  | null => decide +kernel
  | integer n => exact newline_not_mem_jsonInteger n.toInt
  | real x => exact absurd rfl (h x)
  | text s => exact newline_not_mem_jsonText s
  | blob bytes =>
    refine newline_not_mem_jsonArray (List.forall_mem_map.mpr fun b _ => ?_)
    exact newline_not_mem_jsonInteger b.toNat

theorem newline_not_mem_jsonObject (h : ∀ row ∈ r.rows, ∀ v ∈ row, ∀ x, v ≠ .real x) :
    '\n' ∉ jsonObject r := by
  have hcolumns : '\n' ∉ jsonArray (r.columns.map jsonText) :=
    newline_not_mem_jsonArray (List.forall_mem_map.mpr fun s _ => newline_not_mem_jsonText s)
  have hcells : '\n' ∉ jsonArray (r.rows.map fun row => jsonArray (row.map jsonValue)) :=
    newline_not_mem_jsonArray (List.forall_mem_map.mpr fun row hrow =>
      newline_not_mem_jsonArray (List.forall_mem_map.mpr fun v hv =>
        newline_not_mem_jsonValue (h row hrow v hv)))
  rw [jsonObject_eq]
  simp [hcolumns, hcells, newline_not_mem_jsonText]

/-! ## Lossless output -/

theorem exists_forall₂ {α β : Type} {R : α → β → Prop} {xs : List α} (h : ∀ x ∈ xs, ∃ y, R x y) :
    ∃ ys, List.Forall₂ R xs ys := by
  induction xs with
  | nil => exact ⟨[], .nil⟩
  | cons x xs ih =>
    obtain ⟨hx, hxs⟩ := List.forall_mem_cons.mp h
    obtain ⟨y, hy⟩ := hx
    obtain ⟨ys, hys⟩ := ih hxs
    exact ⟨y :: ys, .cons hy hys⟩

theorem exists_showsRows (h : ∀ row ∈ r.rows, ∀ v ∈ row, ∀ x, v ≠ .real x) :
    ∃ j, ShowsRows r j := by
  obtain ⟨rows, hrows⟩ := exists_forall₂ fun row hrow =>
    exists_forall₂ fun v hv => exists_shows (h row hrow v hv)
  exact ⟨_, rows, hrows, rfl⟩

/-- **A result without floating-point numbers is one line**, and a reader of JSON gets all of it
from the line. -/
theorem render_json_lossless (r : Rows) (h : ∀ row ∈ r.rows, ∀ v ∈ row, ∀ x, v ≠ .real x) :
    ∃ line : String, Format.json.render r = line ++ "\n" ∧
      Text.encode (Format.json.render r) = Text.encode line ++ [0x0A] ∧
      0x0A ∉ Text.encode line ∧
      ∃ j, Json.read? line = some j ∧ ShowsRows r j ∧ ∀ r', ShowsRows r' j → r' = r := by
  obtain ⟨j, hj⟩ := exists_showsRows h
  have hrender : Format.json.render r = String.ofList (jsonObject r) ++ "\n" := by
    rw [← String.toList_inj, String.toList_append]
    simp [Format.render, json]
  refine ⟨String.ofList (jsonObject r), hrender, ?_, ?_, j, read?_jsonObject hj, hj, ?_⟩
  · rw [hrender, Text.encode_append, Text.encode_newline]
  · have hline := newline_not_mem_jsonObject h
    rw [← String.toList_ofList (l := jsonObject r)] at hline
    exact mt (Text.mem_encode_iff (x := '\n') (by decide)).mp hline
  · exact fun r' hr' => leftUnique_showsRows hr' hj

/-- Quotes, a backslash, line feeds, other control characters, characters beyond ASCII and beyond
16 bits, the extreme numbers, no bytes and some, a short row and none. -/
theorem render_json_lossless_odd_cells :
    let r : Rows :=
      { columns := ["a\"\\\n", "", "é😀"]
        rows := [[.text "\r\n\x01\x7f😀\"", .null, .integer Int64.minValue],
          [.blob [0, 255], .blob []], [], [.integer Int64.maxValue, .text "null", .integer 0]] }
    Format.json.render r =
        "\x7b\"columns\":[\"a\\\"\\\\\\n\",\"\",\"é😀\"],\"rows\":[" ++
          "[\"\\r\\n\\u0001\x7f😀\\\"\",null,-9223372036854775808],[[0,255],[]],[]," ++
          "[9223372036854775807,\"null\",0]]\x7d\n" ∧
      (∀ row ∈ r.rows, ∀ v ∈ row, ∀ x, v ≠ .real x) ∧
      ∃ line : String, Format.json.render r = line ++ "\n" ∧
        Text.encode (Format.json.render r) = Text.encode line ++ [0x0A] ∧
        0x0A ∉ Text.encode line ∧
        ∃ j, Json.read? line = some j ∧ ShowsRows r j ∧ ∀ r', ShowsRows r' j → r' = r := by
  intro r
  have hcells : ∀ row ∈ r.rows, ∀ v ∈ row, ∀ x, v ≠ .real x := by simp [r]
  exact ⟨by decide +kernel, hcells, render_json_lossless r hcells⟩

end TreeQuery.Output
