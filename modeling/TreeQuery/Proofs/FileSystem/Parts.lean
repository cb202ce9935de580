import Mathlib.Data.List.Basic
import Mathlib.Tactic.SplitIfs
import TreeQuery.Proofs.FileSystem.Names

/-!
# The parts of a path below a directory

A walk gives an entry the path of its directory with the name behind it, and puts a slash between
only where none stands. However the directory is spelled, the entry has one part more than it, its
name (`parts_child`), and **`parts_below`**: what names lead to below a path has the parts of the
path and these names.

So a list of paths hides an entry if the parts of one of them are a front of these. A front of the
bytes is not enough: the paths of two entries of a directory never hide one another
(`not_hides_beside`). What is below a hidden path is hidden (`Hides.below`).
-/

namespace TreeQuery

namespace RawPath

/-- The path that names lead to. -/
def below (path : RawPath) (names : List RawName) : RawPath := names.foldl child path

/-- Whether one of some paths is a path or lies above it. -/
def Hides (ignored : List RawPath) (path : RawPath) : Prop :=
  ∃ above ∈ ignored, above.parts <+: path.parts

variable {path p q : RawPath} {x y first : RawName} {names ns rest rest' : List RawName}
  {ignored : List RawPath} {ps : List Part}

/-! ## One name more -/

/-- A path is cut as the library cuts a list. -/
theorem pieces_eq_splitOn (path : RawPath) : path.pieces = path.splitOn slashByte := by
  induction path with
  | nil => rfl
  | cons b path ih =>
    rw [pieces, List.splitOn, List.splitOnP_cons_eq_if_modifyHead, ← List.splitOn, ← ih]
    by_cases hb : b = slashByte
    · rw [if_pos hb, if_pos (beq_iff_eq.mpr hb)]
    · rw [if_neg hb, if_neg (mt beq_iff_eq.mp hb)]
      have hne : pieces path ≠ [] := by
        rw [ih]
        exact List.splitOnP_ne_nil _ _
      obtain ⟨piece, rest, hsplit⟩ := List.exists_cons_of_ne_nil hne
      rw [hsplit]
      rfl

theorem exists_pieces (path : RawPath) : ∃ first rest, path.pieces = first :: rest :=
  List.exists_cons_of_ne_nil (pieces_eq_splitOn path ▸ List.splitOnP_ne_nil _ _)

theorem pieces_append_slash (p q : RawPath) :
    pieces (p ++ slashByte :: q) = p.pieces ++ q.pieces := by
  rw [pieces_eq_splitOn, pieces_eq_splitOn, pieces_eq_splitOn, List.splitOn_append_cons_self]

theorem pieces_of_not_mem (h : slashByte ∉ x) : pieces x = [x] := by
  rw [pieces_eq_splitOn, List.splitOn_eq_singleton h]

theorem isAbsolute_append (hp : p ≠ []) : isAbsolute (p ++ q) = isAbsolute p := by
  rw [isAbsolute, isAbsolute, List.head?_append_of_ne_nil p hp]

theorem namedParts_append (ns rest : List RawName) :
    namedParts (ns ++ rest) = namedParts ns ++ namedParts rest := by
  rw [namedParts, namedParts, namedParts, List.filter_append, List.map_append]

/-- Pieces that name a part are kept. -/
theorem namedParts_singleton (h : IsRawName x) : namedParts [x] = [.name x] := by
  have hkept : (x != [] && x != [dotByte]) = true := by simp [h.1, h.2.1]
  rw [namedParts, List.filter_singleton, hkept, cond_true, List.map_singleton]

/-- What the pieces after the first name in addition are parts in addition. -/
theorem parts_extend (hp : p.pieces = first :: rest) (hq : q.pieces = first :: rest')
    (habsolute : q.isAbsolute = p.isAbsolute) (hmore : namedParts rest' = namedParts rest ++ ps) :
    q.parts = p.parts ++ ps := by
  have hall : namedParts (first :: rest') = namedParts (first :: rest) ++ ps := by
    rw [← List.singleton_append, namedParts_append, hmore, ← List.append_assoc,
      ← namedParts_append, List.singleton_append]
  unfold parts
  rw [hp, hq]
  dsimp only
  rw [habsolute, hmore, hall]
  split_ifs <;> rfl

/-- **A name is one part more**, whether the path of its directory ends with a slash or not. -/
theorem parts_child (path : RawPath) (h : IsRawName x) :
    (path.child x).parts = path.parts ++ [.name x] := by
  have hx : pieces x = [x] := pieces_of_not_mem h.2.2.2
  have hname := namedParts_singleton h
  rcases List.eq_nil_or_concat' path with rfl | ⟨front, b, rfl⟩
  · -- there is no directory to stand in front of the name
    have hhead : ¬ isAbsolute x = true := fun habsolute =>
      h.2.2.2 (List.mem_of_mem_head? (beq_iff_eq.mp habsolute))
    have hchild : child [] x = x := rfl
    rw [hchild, parts, hx]
    dsimp only
    rw [if_neg hhead, if_neg h.2.1, hname]
    rfl
  · by_cases hb : b = slashByte
    · have hchild : child (front ++ [b]) x = front ++ slashByte :: x := by
        rw [child, hb, if_pos (by simp), List.append_assoc, List.singleton_append]
      obtain ⟨first, rest, hfront⟩ := exists_pieces front
      have hpath : pieces (front ++ [b]) = first :: (rest ++ [[]]) := by
        rw [hb, pieces_append_slash, hfront]
        rfl
      have hmore : pieces (front ++ slashByte :: x) = first :: (rest ++ [x]) := by
        rw [pieces_append_slash, hfront, hx, List.cons_append]
      rw [hchild]
      refine parts_extend hpath hmore ?_ ?_
      · rw [hb, List.append_cons, isAbsolute_append (by simp)]
      · rw [namedParts_append, namedParts_append, hname]
        exact congrArg (· ++ _) (List.append_nil _).symm
    · have hchild : child (front ++ [b]) x = (front ++ [b]) ++ slashByte :: x := by
        rw [child, if_neg (by simp [hb])]
      obtain ⟨first, rest, hpath⟩ := exists_pieces (front ++ [b])
      have hmore : pieces (front ++ [b] ++ slashByte :: x) = first :: (rest ++ [x]) := by
        rw [pieces_append_slash, hpath, hx, List.cons_append]
      rw [hchild]
      refine parts_extend hpath hmore (isAbsolute_append (by simp)) ?_
      rw [namedParts_append, hname]

/-! ## Names below a path -/

theorem below_cons : path.below (x :: names) = (path.child x).below names := rfl

theorem below_append : path.below (names ++ ns) = (path.below names).below ns :=
  List.foldl_append

/-- **The parts below a path** are its own and the names. -/
theorem parts_below (path : RawPath) (h : ∀ x ∈ names, IsRawName x) :
    (path.below names).parts = path.parts ++ names.map .name := by
  induction names generalizing path with
  | nil => exact (List.append_nil _).symm
  | cons x names ih =>
    rw [List.forall_mem_cons] at h
    rw [below_cons, ih (path.child x) h.2, parts_child path h.1, List.map_cons, List.append_assoc,
      List.singleton_append]

theorem under_iff : path.under p ↔ p.parts <+: path.parts := List.isPrefixOf_iff_prefix

theorem any_under_iff : ignored.any path.under ↔ Hides ignored path := by
  rw [List.any_eq_true, Hides]
  exact exists_congr fun above => and_congr_right fun _ => under_iff

theorem not_hides_nil : ¬ Hides [] path := fun ⟨_, hmem, _⟩ => nomatch hmem

/-- What is below a hidden path is hidden. -/
theorem Hides.below (h : Hides ignored path) (hnames : ∀ x ∈ names, IsRawName x) :
    Hides ignored (path.below names) := by
  obtain ⟨above, hmem, hfront⟩ := h
  refine ⟨above, hmem, hfront.trans ?_⟩
  rw [parts_below path hnames]
  exact List.prefix_append _ _

/-- **A path does not hide what is beside it**, even if its bytes are a front of the other's. -/
theorem not_hides_beside (path : RawPath) (hne : x ≠ y) (hx : IsRawName x)
    (hy : ∀ z ∈ y :: names, IsRawName z) :
    ¬ Hides [path.child x] (path.below (y :: names)) := by
  rintro ⟨above, hmem, hfront⟩
  obtain rfl := List.mem_singleton.mp hmem
  rw [parts_child path hx, parts_below path hy, List.prefix_append_right_inj, List.map_cons,
    List.cons_prefix_cons] at hfront
  exact hne (Part.name.inj hfront.1)

end RawPath

end TreeQuery
