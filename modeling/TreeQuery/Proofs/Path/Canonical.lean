import Mathlib.Data.List.Basic
import Mathlib.Data.List.Induction
import Mathlib.Tactic.ByContra
import TreeQuery.Path.Relative

/-!
# The canonical spelling of a path

`RelPath.text` writes a path down in one way and `RelPath.ofText?` reads it again: `ofText?_text`,
so two paths with one text are the same (`text_inj`). A path is the root or a child of another
one, and `split?` tells which.

`isPrefix_iff_text` says what lies below a path in terms of texts alone: the text itself, and every
text that goes on with a slash. `segmentCount` counts the segments of a text.
-/

namespace TreeQuery

/-! ## Texts between slashes -/

theorem splitSlash_ne_nil (cs : List Char) : splitSlash cs ≠ [] := by
  unfold splitSlash
  split
  · exact List.cons_ne_nil _ _
  · split
    · exact List.cons_ne_nil _ _
    · split <;> exact List.cons_ne_nil _ _

theorem splitSlash_slash (cs : List Char) : splitSlash ('/' :: cs) = [] :: splitSlash cs := rfl

theorem splitSlash_cons {c : Char} {cs piece : List Char} {pieces : List (List Char)}
    (hc : c ≠ '/') (h : splitSlash cs = piece :: pieces) :
    splitSlash (c :: cs) = (c :: piece) :: pieces := by
  rw [splitSlash, if_neg hc, h]

/-- A slash cuts a text in two. -/
theorem splitSlash_append_slash (front rest : List Char) :
    splitSlash (front ++ '/' :: rest) = splitSlash front ++ splitSlash rest := by
  induction front with
  | nil => rfl
  | cons c cs ih =>
    by_cases hc : c = '/'
    · subst hc
      rw [List.cons_append, splitSlash_slash, splitSlash_slash, ih, List.cons_append]
    · obtain ⟨piece, pieces, hsplit⟩ := List.exists_cons_of_ne_nil (splitSlash_ne_nil cs)
      rw [hsplit] at ih
      rw [List.cons_append, splitSlash_cons hc ih, splitSlash_cons hc hsplit]
      rfl

theorem splitSlash_of_not_mem {piece : List Char} (h : '/' ∉ piece) :
    splitSlash piece = [piece] := by
  induction piece with
  | nil => rfl
  | cons c cs ih =>
    rw [List.mem_cons, not_or] at h
    exact splitSlash_cons (Ne.symm h.1) (ih h.2)

theorem joinSlash_cons_cons (a b : List Char) (pieces : List (List Char)) :
    joinSlash (a :: b :: pieces) = a ++ '/' :: joinSlash (b :: pieces) := rfl

theorem joinSlash_append {front rest : List (List Char)} (hfront : front ≠ []) (hrest : rest ≠ []) :
    joinSlash (front ++ rest) = joinSlash front ++ '/' :: joinSlash rest := by
  induction front with
  | nil => exact absurd rfl hfront
  | cons a front ih =>
    cases front with
    | nil =>
      obtain ⟨b, pieces, rfl⟩ := List.exists_cons_of_ne_nil hrest
      rfl
    | cons b front =>
      have hjoin := ih (List.cons_ne_nil _ _)
      rw [joinSlash_cons_cons, List.append_assoc]
      exact congrArg (a ++ '/' :: ·) hjoin

theorem joinSlash_eq_intercalate (pieces : List (List Char)) :
    joinSlash pieces = ['/'].intercalate pieces := by
  induction pieces with
  | nil => rfl
  | cons a pieces ih =>
    cases pieces with
    | nil => exact List.intercalate_singleton.symm
    | cons b pieces =>
      rw [joinSlash_cons_cons, ih, List.intercalate_cons_cons, List.append_assoc]
      rfl

/-- Pieces without slashes are what their join is cut into. -/
theorem splitSlash_joinSlash {pieces : List (List Char)} (hne : pieces ≠ [])
    (h : ∀ piece ∈ pieces, '/' ∉ piece) : splitSlash (joinSlash pieces) = pieces := by
  induction pieces with
  | nil => exact absurd rfl hne
  | cons a pieces ih =>
    obtain ⟨ha, hpieces⟩ := List.forall_mem_cons.mp h
    cases pieces with
    | nil => exact splitSlash_of_not_mem ha
    | cons b pieces =>
      rw [joinSlash_cons_cons, splitSlash_append_slash, splitSlash_of_not_mem ha,
        ih (List.cons_ne_nil _ _) hpieces]
      rfl

theorem toList_append_slash (front rest : String) :
    (front ++ "/" ++ rest).toList = front.toList ++ '/' :: rest.toList := by
  rw [String.toList_append, String.toList_append, List.append_assoc]
  rfl

/-- How many segments a canonical text has. -/
def segmentCount (text : String) : Nat :=
  if text = RelPath.rootText then 0 else (splitSlash text.toList).length

namespace RelPath

variable {p q : RelPath} {s : Segment}

/-! ## The canonical text -/

theorem text_root : root.text = rootText := rfl

theorem eq_root_iff : p = root ↔ p.segments = [] := by
  cases p
  simp [root]

theorem toList_text (h : p ≠ root) :
    p.text.toList = joinSlash (p.segments.map Segment.chars) := by
  unfold text
  split
  · exact absurd (eq_root_iff.mpr ‹_›) h
  · exact String.toList_ofList

/-- The canonical text is the segments with a slash between any two. -/
theorem text_eq_intercalate (h : p ≠ root) :
    p.text = "/".intercalate (p.segments.map Segment.text) := by
  have hchars : String.toList ∘ Segment.text = Segment.chars := funext fun s => String.toList_ofList
  rw [← String.toList_inj, toList_text h, joinSlash_eq_intercalate, String.toList_intercalate,
    List.map_map, hchars]
  rfl

theorem map_chars_ne_nil (h : p ≠ root) : p.segments.map Segment.chars ≠ [] := by
  rw [Ne, List.map_eq_nil_iff, ← eq_root_iff]
  exact h

theorem splitSlash_text (h : p ≠ root) :
    splitSlash p.text.toList = p.segments.map Segment.chars := by
  rw [toList_text h]
  refine splitSlash_joinSlash (map_chars_ne_nil h) fun piece hpiece => ?_
  obtain ⟨s, -, rfl⟩ := List.mem_map.mp hpiece
  exact s.ordinary.2.2.2

/-- The text of a path that leads on from another one. -/
theorem toList_text_append {rest : List Segment} (h : p ≠ root) (hrest : rest ≠ []) :
    (RelPath.mk (p.segments ++ rest)).text.toList =
      p.text.toList ++ '/' :: joinSlash (rest.map Segment.chars) := by
  have hne : RelPath.mk (p.segments ++ rest) ≠ root := by
    simp [eq_root_iff, hrest]
  have hmap : rest.map Segment.chars ≠ [] := mt List.map_eq_nil_iff.mp hrest
  rw [toList_text hne, List.map_append, joinSlash_append (map_chars_ne_nil h) hmap, toList_text h]

theorem segments_inj : p.segments = q.segments ↔ p = q := by
  cases p
  cases q
  simp

theorem map_chars_inj {as bs : List Segment} :
    as.map Segment.chars = bs.map Segment.chars ↔ as = bs := by
  refine List.map_inj_right fun a b h => ?_
  cases a
  cases b
  simpa using h

/-- The root's text is not that of another path. -/
theorem text_eq_rootText_iff : p.text = rootText ↔ p = root := by
  constructor
  · intro h
    by_contra hp
    -- a dot alone is no segment
    have hsplit := splitSlash_text hp
    rw [h] at hsplit
    obtain ⟨s, -, hs⟩ : ∃ s ∈ p.segments, s.chars = ['.'] := by
      have hdot : ['.'] ∈ p.segments.map Segment.chars := by
        rw [← hsplit]
        decide +kernel
      exact List.mem_map.mp hdot
    exact s.ordinary.2.1 hs
  · rintro rfl
    rfl

/-- **A text is that of one path only.** -/
theorem text_inj : p.text = q.text ↔ p = q := by
  constructor
  · intro h
    by_cases hp : p = root
    · have hq : q.text = rootText := by rw [← h, hp, text_root]
      rw [hp, text_eq_rootText_iff.mp hq]
    · have hq : q ≠ root := by
        intro hq
        rw [hq, text_root, text_eq_rootText_iff] at h
        exact hp h
      have hsplit := splitSlash_text hp
      rw [h, splitSlash_text hq, map_chars_inj, segments_inj] at hsplit
      exact hsplit.symm
  · rintro rfl
    rfl

theorem segmentCount_text (p : RelPath) : segmentCount p.text = p.segments.length := by
  unfold segmentCount
  by_cases hp : p = root
  · rw [if_pos (text_eq_rootText_iff.mpr hp), hp]
    rfl
  · rw [if_neg (mt text_eq_rootText_iff.mp hp), splitSlash_text hp, List.length_map]

/-! ## Reading the canonical text -/

theorem follow_segments (segments place : List Segment) :
    follow (segments.map Segment.chars) place = some (segments.reverse ++ place) := by
  induction segments generalizing place with
  | nil => rfl
  | cons s segments ih =>
    have hs : Segment.ofChars? s.chars = some s := dif_pos s.ordinary
    have hstep : follow ((s :: segments).map Segment.chars) place =
        follow (segments.map Segment.chars) (s :: place) := by
      simp only [List.map_cons, follow, s.ordinary.2.2.1, if_false, hs]
    rw [hstep, ih, List.reverse_cons, List.append_assoc]
    rfl

/-- What a text spells, if it is not empty and does not start with a slash. -/
theorem ofText?_eq {raw : String} (hne : raw.toList ≠ []) (hslash : raw.toList.head? ≠ some '/') :
    ofText? raw = (follow (splitSlash raw.toList) []).map fun place => ⟨place.reverse⟩ := by
  unfold ofText?
  split
  · exact absurd ‹_› hne
  · rename_i h
    rw [h] at hslash
    exact absurd rfl hslash
  · rfl

/-- **The canonical text is read as the path.** -/
theorem ofText?_text (p : RelPath) : ofText? p.text = some p := by
  by_cases hp : p = root
  · subst hp
    decide +kernel
  · obtain ⟨s, segments, hsegments⟩ := List.exists_cons_of_ne_nil (mt eq_root_iff.mpr hp)
    obtain ⟨c, cs, hchars⟩ := List.exists_cons_of_ne_nil s.ordinary.1
    have hc : c ≠ '/' := by
      rintro rfl
      exact s.ordinary.2.2.2 (hchars ▸ List.mem_cons_self)
    have htext : ∃ rest, p.text.toList = c :: rest := by
      rw [toList_text hp, hsegments, List.map_cons, hchars]
      cases segments with
      | nil => exact ⟨cs, rfl⟩
      | cons t segments => exact ⟨_, rfl⟩
    obtain ⟨rest, hrest⟩ := htext
    rw [ofText?_eq (by simp [hrest]) (by simpa [hrest] using hc), splitSlash_text hp,
      follow_segments, Option.map_some, List.append_nil, List.reverse_reverse]

/-! ## Children -/

/-- The path of an entry of a directory. -/
def child (p : RelPath) (s : Segment) : RelPath :=
  ⟨p.segments ++ [s]⟩

theorem child_ne_root : p.child s ≠ root := by
  simp [eq_root_iff, child]

theorem split?_root : root.split? = none := rfl

theorem split?_child : (p.child s).split? = some (p, s) := by
  simp [split?, child]

theorem split?_eq_some_iff : p.split? = some (q, s) ↔ p = q.child s := by
  constructor
  · intro h
    obtain ⟨t, hlast, heq⟩ := Option.map_eq_some_iff.mp h
    obtain ⟨rfl, rfl⟩ := Prod.mk.inj heq
    rw [child, ← segments_inj]
    exact (List.dropLast_append_getLast? t hlast).symm
  · rintro rfl
    exact split?_child

theorem split?_eq_none_iff : p.split? = none ↔ p = root := by
  rw [split?, Option.map_eq_none_iff, List.getLast?_eq_none_iff, eq_root_iff]

/-- A path is the root or a child. -/
theorem root_or_child (p : RelPath) : p = root ∨ ∃ (q : RelPath) (s : Segment), p = q.child s := by
  cases h : p.split? with
  | none => exact .inl (split?_eq_none_iff.mp h)
  | some d => exact .inr ⟨d.1, d.2, split?_eq_some_iff.mp h⟩

/-- Paths come from the root by going down. -/
@[elab_as_elim]
theorem induction_child {motive : RelPath → Prop} (root : motive root)
    (child : ∀ p s, motive p → motive (p.child s)) (p : RelPath) : motive p := by
  obtain ⟨segments⟩ := p
  induction segments using List.reverseRecOn with
  | nil => exact root
  | append_singleton segments s ih => exact child ⟨segments⟩ s ih

theorem child_inj {t : Segment} : p.child s = q.child t ↔ p = q ∧ s = t := by
  rw [← split?_eq_some_iff, split?_child, Option.some.injEq, Prod.mk.injEq]

theorem text_child : (p.child s).text = childText p.text s.text := by
  unfold childText
  by_cases hp : p = root
  · rw [if_pos (text_eq_rootText_iff.mpr hp), hp]
    rfl
  · rw [if_neg (mt text_eq_rootText_iff.mp hp), ← String.toList_inj, child,
      toList_text_append hp (List.cons_ne_nil _ _), toList_append_slash, Segment.text,
      String.toList_ofList]
    rfl

/-! ## Paths below a path -/

/-- **What lies below a path**, said of the texts. -/
theorem isPrefix_iff_text : p.segments <+: q.segments ↔
    p.text = rootText ∨ q.text = p.text ∨ ∃ rest, q.text = p.text ++ "/" ++ rest := by
  rw [text_eq_rootText_iff, text_inj]
  constructor
  · rintro ⟨rest, hrest⟩
    by_cases hp : p = root
    · exact .inl hp
    · cases rest with
      | nil =>
        rw [List.append_nil, segments_inj] at hrest
        exact .inr (.inl hrest.symm)
      | cons s rest =>
        obtain rfl : RelPath.mk (p.segments ++ s :: rest) = q := segments_inj.mp hrest
        refine .inr (.inr ⟨String.ofList (joinSlash ((s :: rest).map Segment.chars)), ?_⟩)
        rw [← String.toList_inj, toList_text_append hp (List.cons_ne_nil _ _), toList_append_slash,
          String.toList_ofList]
  · rintro (hp | rfl | ⟨rest, hrest⟩)
    · rw [eq_root_iff.mp hp]
      exact List.nil_prefix
    · exact List.prefix_refl _
    · by_cases hp : p = root
      · rw [eq_root_iff.mp hp]
        exact List.nil_prefix
      · have hq : q ≠ root := by
          -- the root's text has no slash
          rintro rfl
          have hmem : '/' ∈ rootText.toList := by
            rw [← text_root, hrest, toList_append_slash]
            simp
          exact absurd hmem (by decide +kernel)
        have hsplit := splitSlash_text hq
        rw [hrest, toList_append_slash, splitSlash_append_slash, splitSlash_text hp] at hsplit
        obtain ⟨more, hmore⟩ : p.segments.map Segment.chars <+: q.segments.map Segment.chars :=
          ⟨_, hsplit⟩
        obtain ⟨as, bs, hq, has, -⟩ := List.map_eq_append_iff.mp hmore.symm
        rw [hq, ← map_chars_inj.mp has]
        exact List.prefix_append _ _

end RelPath

end TreeQuery
