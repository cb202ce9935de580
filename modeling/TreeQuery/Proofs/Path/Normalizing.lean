import Mathlib.Data.List.Infix
import TreeQuery.Proofs.Path.Spelling

/-!
# Normalizing a path

To read a path is to follow its segments one after the other, with the segments on the way down as
a stack: a name is pushed, `..` takes one away, and there is no way up from the root.
`follow_append` says that what stands behind a slash goes on from where the part before it led, and
`follow_eq_none_iff` says when a path leads above the root: some front of it has more `..` than
names.

A canonical key is the spelling of some place (`isCanonical_iff`). **`normalization_canonicalizes`**
says that normalization refuses nothing else, that the canonical keys are what it yields and what
it leaves alone, and that it may be done to a front of a path first.
-/

namespace TreeQuery

/-- The key of the place that a text spells. -/
def RelPath.normalize? (raw : String) : Option String :=
  (ofText? raw).map text

/-- A canonical key: the root's, or names with a slash between any two. -/
def IsCanonical (key : String) : Prop :=
  key = RelPath.rootText ∨ ∃ names : List String, names ≠ [] ∧ (∀ n ∈ names, IsOrdinary n.toList) ∧
    key = "/".intercalate names

/-- **A normalization** of paths below the root. -/
structure Canonicalizes (normalize : String → Option String) : Prop where
  /-- What is refused: the empty text, absolute texts, and those that lead above the root. -/
  eq_none_iff : ∀ raw, normalize raw = none ↔ raw = "" ∨ raw.toList.head? = some '/' ∨
    ∃ front, front <+: raw.toList.splitOn '/' ∧
      front.countP (IsOrdinary ·) < front.count ['.', '.']
  image : ∀ key, (∃ raw, normalize raw = some key) ↔ IsCanonical key
  /-- No slash stands at an end of a key or beside another. -/
  slashes : ∀ raw key, normalize raw = some key → key.toList.head? ≠ some '/' ∧
    key.toList.getLast? ≠ some '/' ∧ ¬ ['/', '/'] <:+: key.toList
  /-- A key is left as it is, so a second normalization changes nothing. -/
  eq_self : ∀ key, IsCanonical key → normalize key = some key
  /-- What stands behind a path that is refused does not mend it. -/
  append_of_none : ∀ a b, a ≠ "" → a.toList.head? ≠ some '/' → normalize a = none →
    normalize (a ++ "/" ++ b) = none
  /-- A front of a path may be normalized first. -/
  append_of_some : ∀ a b key, normalize a = some key →
    normalize (a ++ "/" ++ b) = normalize (key ++ "/" ++ b)

/-! ## Segments -/

/-- The pieces between slashes are cut as the library cuts a list. -/
theorem splitSlash_eq_splitOn (cs : List Char) : splitSlash cs = cs.splitOn '/' := by
  induction cs with
  | nil => rfl
  | cons c cs ih =>
    rw [List.splitOn, List.splitOnP_cons_eq_if_modifyHead, ← List.splitOn, ← ih]
    by_cases hc : c = '/'
    · rw [if_pos (beq_iff_eq.mpr hc), hc, splitSlash_slash]
    · obtain ⟨piece, pieces, hsplit⟩ := List.exists_cons_of_ne_nil (splitSlash_ne_nil cs)
      rw [if_neg (mt beq_iff_eq.mp hc), hsplit, splitSlash_cons hc hsplit]
      rfl

/-- Names without slashes, with a slash between any two, have no two slashes in a row. -/
theorem not_doubled_of_splitSlash {cs : List Char} (h : [] ∉ splitSlash cs) :
    ¬ ['/', '/'] <:+: cs := by
  rintro ⟨front, rest, rfl⟩
  refine h ?_
  rw [List.append_assoc, List.cons_append, splitSlash_append_slash, List.cons_append,
    splitSlash_slash]
  exact List.mem_append_right _ List.mem_cons_self

namespace RelPath

variable {pieces : List (List Char)} {place : List Segment} {raw key : String} {p : RelPath}

/-! ## Following segments -/

theorem follow_name {piece : List Char} (h : IsOrdinary piece) :
    follow (piece :: pieces) place = follow pieces (⟨piece, h⟩ :: place) := by
  have hs : Segment.ofChars? piece = some ⟨piece, h⟩ := dif_pos h
  simp only [follow, h.2.2.1, if_false, hs]

theorem follow_up_root : follow (['.', '.'] :: pieces) [] = none := rfl

theorem follow_up (s : Segment) :
    follow (['.', '.'] :: pieces) (s :: place) = follow pieces place := rfl

/-- Empty segments and `.` lead nowhere else. -/
theorem follow_skip {piece : List Char} (hup : piece ≠ ['.', '.']) (h : ¬ IsOrdinary piece) :
    follow (piece :: pieces) place = follow pieces place := by
  have hs : Segment.ofChars? piece = none := dif_neg h
  simp only [follow, hup, if_false, hs]

/-- What stands farther on is followed from the place that was reached. -/
theorem follow_append (front rest : List (List Char)) (place : List Segment) :
    follow (front ++ rest) place = (follow front place).bind (follow rest) := by
  induction front generalizing place with
  | nil => rfl
  | cons piece front ih =>
    rw [List.cons_append]
    by_cases hup : piece = ['.', '.']
    · subst hup
      cases place with
      | nil => rfl
      | cons s place => rw [follow_up, follow_up, ih]
    · by_cases hname : IsOrdinary piece
      · rw [follow_name hname, follow_name hname, ih]
      · rw [follow_skip hup hname, follow_skip hup hname, ih]

/-- **A path leads above the root** iff some front of it has more `..` than there are names, those
of the place where it starts among them. -/
theorem follow_eq_none_iff : follow pieces place = none ↔ ∃ front, front <+: pieces ∧
    place.length + front.countP (IsOrdinary ·) < front.count ['.', '.'] := by
  induction pieces generalizing place with
  | nil => simp [follow]
  | cons piece pieces ih =>
    -- the empty front never leads above, so a front starts with the first segment
    have hcons : (∃ front, front <+: piece :: pieces ∧
        place.length + front.countP (IsOrdinary ·) < front.count ['.', '.']) ↔
        ∃ front, front <+: pieces ∧ place.length + (piece :: front).countP (IsOrdinary ·) <
          (piece :: front).count ['.', '.'] := by
      simp [List.prefix_cons_iff]
    rw [hcons]
    by_cases hup : piece = ['.', '.']
    · have hname : ¬ IsOrdinary piece := fun h => h.2.2.1 hup
      subst hup
      cases place with
      | nil =>
        rw [follow_up_root]
        refine iff_of_true rfl ⟨[], List.nil_prefix, ?_⟩
        decide
      | cons s place =>
        rw [follow_up, ih]
        refine exists_congr fun front => and_congr_right fun _ => ?_
        rw [List.countP_cons_of_neg (by simpa using hname), List.count_cons_self, List.length_cons]
        omega
    · by_cases hname : IsOrdinary piece
      · rw [follow_name hname, ih]
        refine exists_congr fun front => and_congr_right fun _ => ?_
        rw [List.countP_cons_of_pos (by simpa using hname), List.count_cons_of_ne hup,
          List.length_cons]
        omega
      · rw [follow_skip hup hname, ih]
        refine exists_congr fun front => and_congr_right fun _ => ?_
        rw [List.countP_cons_of_neg (by simpa using hname), List.count_cons_of_ne hup]

/-! ## Canonical keys -/

/-- The canonical keys are the spellings of places. -/
theorem isCanonical_iff : IsCanonical key ↔ ∃ p : RelPath, p.text = key := by
  constructor
  · rintro (rfl | ⟨names, hne, hnames, rfl⟩)
    · exact ⟨root, text_root⟩
    · let segments := names.attach.map fun n => Segment.mk n.1.toList (hnames n.1 n.2)
      have htexts : segments.map Segment.text = names := by
        simp [segments, Segment.text, Function.comp_def]
      have hroot : RelPath.mk segments ≠ root := by
        rw [Ne, eq_root_iff]
        intro h
        have hnil : segments = [] := h
        exact hne (by rw [← htexts, hnil, List.map_nil])
      exact ⟨⟨segments⟩, by rw [text_eq_intercalate hroot, htexts]⟩
  · rintro ⟨p, rfl⟩
    by_cases hp : p = root
    · exact .inl (text_eq_rootText_iff.mpr hp)
    · refine .inr ⟨p.segments.map Segment.text, ?_, ?_, text_eq_intercalate hp⟩
      · rw [Ne, List.map_eq_nil_iff, ← eq_root_iff]
        exact hp
      · intro n hn
        obtain ⟨s, -, rfl⟩ := List.mem_map.mp hn
        rw [Segment.text, String.toList_ofList]
        exact s.ordinary

theorem not_doubled_text (p : RelPath) : ¬ ['/', '/'] <:+: p.text.toList := by
  by_cases hp : p = root
  · subst hp
    decide +kernel
  · refine not_doubled_of_splitSlash ?_
    rw [splitSlash_text hp]
    intro hempty
    obtain ⟨s, -, hs⟩ := List.mem_map.mp hempty
    exact s.ordinary.1 hs

/-! ## Normalization -/

theorem normalize?_text (p : RelPath) : normalize? p.text = some p.text := by
  rw [normalize?, ofText?_text, Option.map_some]

theorem ofText?_eq_none_iff : ofText? raw = none ↔ raw = "" ∨ raw.toList.head? = some '/' ∨
    follow (splitSlash raw.toList) [] = none := by
  by_cases hne : raw.toList = []
  · obtain rfl : raw = "" := String.toList_inj.mp hne
    exact iff_of_true rfl (.inl rfl)
  · have hempty : raw ≠ "" := fun h => hne (by rw [h]; rfl)
    by_cases hslash : raw.toList.head? = some '/'
    · refine iff_of_true ?_ (.inr (.inl hslash))
      obtain ⟨cs, hcs⟩ := List.head?_eq_some_iff.mp hslash
      simp only [ofText?, hcs]
    · rw [ofText?_eq hne hslash, Option.map_eq_none_iff]
      simp [hempty, hslash]

/-- A text with more behind a slash leads on from where the text led. -/
theorem ofText?_append (hne : raw ≠ "") (hslash : raw.toList.head? ≠ some '/') (rest : String) :
    ofText? (raw ++ "/" ++ rest) = (ofText? raw).bind fun p =>
      (follow (splitSlash rest.toList) p.segments.reverse).map fun place => ⟨place.reverse⟩ := by
  have hne' : raw.toList ≠ [] := fun h => hne (String.toList_inj.mp h)
  obtain ⟨c, cs, hcs⟩ := List.exists_cons_of_ne_nil hne'
  have hhead : (raw ++ "/" ++ rest).toList.head? = raw.toList.head? := by
    rw [toList_append_slash, hcs]
    rfl
  have hnil : (raw ++ "/" ++ rest).toList ≠ [] := by
    rw [toList_append_slash, hcs]
    exact List.cons_ne_nil _ _
  rw [ofText?_eq hnil (hhead ▸ hslash), ofText?_eq hne' hslash, toList_append_slash,
    splitSlash_append_slash, follow_append]
  cases follow (splitSlash raw.toList) [] with
  | none => rfl
  | some place =>
    simp only [Option.bind_some, Option.map_some, List.reverse_reverse]

/-- **Normalization is canonical**: it is that of a machine which follows the segments. -/
theorem normalization_canonicalizes : Canonicalizes normalize? where
  eq_none_iff := by
    intro raw
    rw [normalize?, Option.map_eq_none_iff, ofText?_eq_none_iff, follow_eq_none_iff,
      splitSlash_eq_splitOn]
    simp only [List.length_nil, Nat.zero_add]
  image := by
    intro key
    rw [isCanonical_iff]
    constructor
    · rintro ⟨raw, h⟩
      obtain ⟨p, -, hp⟩ := Option.map_eq_some_iff.mp h
      exact ⟨p, hp⟩
    · rintro ⟨p, rfl⟩
      exact ⟨_, normalize?_text p⟩
  slashes := by
    intro raw key h
    obtain ⟨p, -, rfl⟩ := Option.map_eq_some_iff.mp h
    exact ⟨p.head?_text, p.getLast?_text, p.not_doubled_text⟩
  eq_self := by
    intro key h
    obtain ⟨p, rfl⟩ := isCanonical_iff.mp h
    exact normalize?_text p
  append_of_none := by
    intro a b hne hslash h
    rw [normalize?, Option.map_eq_none_iff] at h
    rw [normalize?, ofText?_append hne hslash, h]
    rfl
  append_of_some := by
    intro a b key h
    obtain ⟨p, hp, rfl⟩ := Option.map_eq_some_iff.mp h
    have hread : ofText? a ≠ none := by simp [hp]
    rw [Ne, ofText?_eq_none_iff, not_or, not_or] at hread
    have hkey : p.text ≠ "" := fun h => p.toList_text_ne_nil (by rw [h]; rfl)
    rw [normalize?, normalize?, ofText?_append hread.1 hread.2.1, hp,
      ofText?_append hkey p.head?_text, ofText?_text]

end RelPath

end TreeQuery
