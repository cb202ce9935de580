import Mathlib.Algebra.Group.Nat.Defs
import Mathlib.Data.List.Basic
import Mathlib.Data.Nat.Basic
import Mathlib.Order.Basic
import Mathlib.Tactic.ByContra
import TreeQuery.Catalog.Closure

/-!
# The tables of positions

The tables of a closure repeat what its edges say, and every insertion has to keep them up.
`Closure.Indexed` is what it preserves: the row of an entry has the positions of the edges at that
end of which the entry is, in their order. Positions are cut off to 32 bits, so what a table gives
is what it should give as long as the closure `Fits`: `ancestors_eq` and `subtree_eq` say it without
the tables.

`insert_eq_ok_iff` says when an entry is linked and `edges_extend` which edges this adds.
-/

namespace TreeQuery

/-! ## Rows -/

namespace PositionTable

variable {table : PositionTable} {id : EntryId} {position : UInt32}

theorem row_eq_nil (h : table.size ≤ id.slot) : table.row id = [] := by
  rw [row, Array.getElem?_eq_none h]
  rfl

/-- An entry that is new has an empty row, like one that is not there. -/
theorem row_push : PositionTable.row (table.push #[]) id = table.row id := by
  unfold row
  rw [Array.getElem?_push]
  split
  · rename_i hsize
    rw [Array.getElem?_eq_none hsize.ge]
    rfl
  · rfl

theorem size_note : (table.note id position).size = table.size := Array.size_modify

theorem row_note (h : id.slot < table.size) (position : UInt32) (x : EntryId) :
    (table.note id position).row x = table.row x ++ if id = x then [position] else [] := by
  unfold row note
  rw [Array.getElem?_modify]
  by_cases hx : id = x
  · subst hx
    rw [if_pos rfl, if_pos rfl, Array.getElem?_eq_getElem h]
    simp
  · have hslot : id.slot ≠ x.slot := mt EntryId.slot_inj.mp hx
    rw [if_neg hslot, if_neg hx, List.append_nil]

end PositionTable

namespace Closure

variable {c c' : Closure} {e : Edge} {id d r : EntryId} {parent? : Option EntryId}

/-! ## Tables and edges -/

/-- Every position fits into 32 bits. -/
def Fits (c : Closure) : Prop :=
  c.edgeCount ≤ 2 ^ 32

/-- The positions of the edges of a kind, in 32 bits. -/
def positionsOf (p : Edge → Bool) (edges : List Edge) : List UInt32 :=
  (edges.zipIdx.filter fun x => p x.1).map fun x => x.2.toUInt32

theorem positionsOf_concat (p : Edge → Bool) (edges : List Edge) : positionsOf p (edges ++ [e]) =
    positionsOf p edges ++ if p e then [edges.length.toUInt32] else [] := by
  unfold positionsOf
  rw [List.zipIdx_append, List.filter_append, List.map_append]
  by_cases he : p e <;> simp [he]

/-- **The tables say what the edges say.** -/
structure Indexed (c : Closure) : Prop where
  size_eq : c.byAncestor.size = c.size
  ends : ∀ e ∈ c.edges, c.contains e.ancestor ∧ c.contains e.descendant
  down : ∀ id, c.byAncestor.row id = positionsOf (fun e => e.ancestor == id) c.edges
  up : ∀ id, c.byDescendant.row id = positionsOf (fun e => e.descendant == id) c.edges

theorem contains_iff : c.contains d ↔ d.slot < c.size := by
  simp [contains]

theorem length_edges (c : Closure) : c.edges.length = c.edgeCount := Array.length_toList

/-- Positions that are not cut off lead to the edges. -/
theorem edgesIn_eq (hs : c.Fits) {table : PositionTable} {p : Edge → Bool}
    (hrow : table.row id = positionsOf p c.edges) : c.edgesIn table id = c.edges.filter p := by
  have hfound : ∀ x ∈ c.edges.zipIdx.filter (fun x => p x.1),
      ((fun position : UInt32 => c.arena[position.toNat]?) ∘ fun x => x.2.toUInt32) x =
        (some ∘ Prod.fst) x := by
    intro x hx
    have hget := List.mem_zipIdx_iff_getElem?.mp (List.mem_of_mem_filter hx)
    have hlt : x.2 < 2 ^ 32 :=
      ((List.getElem?_eq_some_iff.mp hget).1.trans_eq c.length_edges).trans_le hs
    have hposition : x.2.toUInt32.toNat = x.2 := UInt32.toNat_ofNat_of_lt' hlt
    simp only [Function.comp_apply, hposition]
    rw [← hget, edges, Array.getElem?_toList]
  rw [edgesIn, hrow, positionsOf, List.filterMap_map]
  calc
    _ = (c.edges.zipIdx.filter fun x => p x.1).filterMap (some ∘ Prod.fst) :=
      List.filterMap_congr hfound
    _ = (c.edges.zipIdx.filter (p ∘ Prod.fst)).map Prod.fst := by
      rw [List.filterMap_eq_map]
      rfl
    _ = c.edges.filter p := by rw [← List.filter_map, List.zipIdx_map_fst]

theorem length_positionsOf (p : Edge → Bool) (edges : List Edge) :
    (positionsOf p edges).length = edges.countP p := by
  rw [positionsOf, List.length_map, ← List.countP_eq_length_filter]
  calc
    _ = edges.zipIdx.countP (p ∘ Prod.fst) := rfl
    _ = edges.countP p := by rw [← List.countP_map, List.zipIdx_map_fst]

/-- A position that is cut off leads to some edge too, so none goes missing. -/
theorem length_edgesIn {table : PositionTable} {p : Edge → Bool}
    (hrow : table.row id = positionsOf p c.edges) :
    (c.edgesIn table id).length = c.edges.countP p := by
  have hfound : ∀ position ∈ table.row id, (c.arena[position.toNat]?).isSome := by
    intro position hposition
    rw [hrow] at hposition
    obtain ⟨x, hx, rfl⟩ := List.mem_map.mp hposition
    obtain ⟨hlt, -⟩ :=
      List.getElem?_eq_some_iff.mp (List.mem_zipIdx_iff_getElem?.mp (List.mem_of_mem_filter hx))
    have hsize : x.2.toUInt32.toNat < c.arena.size :=
      (Nat.mod_le x.2 _).trans_lt (hlt.trans_eq c.length_edges)
    rw [Array.getElem?_eq_getElem hsize]
    rfl
  rw [edgesIn, List.filterMap_length_eq_length.mpr hfound, hrow, length_positionsOf]

/-- There are as many entries above an entry as edges that lead up from it. -/
theorem length_ancestors (h : c.Indexed) (d : EntryId) :
    (c.ancestors d).length = c.edges.countP fun e => e.descendant == d := by
  rw [ancestors, List.length_map, length_edgesIn (h.up d)]

/-- What leads up from an entry. -/
theorem ancestors_eq (h : c.Indexed) (hs : c.Fits) : c.ancestors d =
    (c.edges.filter fun e => e.descendant == d).map fun e => ⟨e.ancestor, e.depth⟩ := by
  rw [ancestors, edgesIn_eq hs (h.up d)]

/-- What leads down from an entry. -/
theorem subtree_eq (h : c.Indexed) (hs : c.Fits) : c.subtree r =
    (c.edges.filter fun e => e.ancestor == r).map fun e => ⟨e.descendant, e.depth⟩ := by
  rw [subtree, edgesIn_eq hs (h.down r)]

theorem mem_edges_iff (h : c.Indexed) (hs : c.Fits) {a : EntryId} {k : Nat} :
    ⟨a, d, k⟩ ∈ c.edges ↔ ⟨a, k⟩ ∈ c.ancestors d := by
  rw [ancestors_eq h hs, List.mem_map]
  constructor
  · intro he
    exact ⟨_, List.mem_filter.mpr ⟨he, by simp⟩, rfl⟩
  · rintro ⟨⟨b, x, j⟩, he, heq⟩
    obtain ⟨hmem, hx⟩ := List.mem_filter.mp he
    obtain ⟨rfl, rfl⟩ := Kin.mk.inj heq
    obtain rfl : x = d := by simpa using hx
    exact hmem

theorem ancestors_of_not_contains (h : ¬ c.contains d) : c.ancestors d = [] := by
  rw [contains_iff, size, Nat.not_lt] at h
  rw [ancestors, edgesIn, PositionTable.row_eq_nil h]
  rfl

theorem subtree_of_not_contains (hc : c.Indexed) (h : ¬ c.contains r) : c.subtree r = [] := by
  rw [contains_iff, ← hc.size_eq, Nat.not_lt] at h
  rw [subtree, edgesIn, PositionTable.row_eq_nil h]
  rfl

theorem contains_of_mem_ancestors {k : Kin} (h : k ∈ c.ancestors d) : c.contains d := by
  by_contra hd
  rw [ancestors_of_not_contains hd] at h
  cases h

/-! ## One edge -/

theorem edges_pushEdge : (c.pushEdge e).edges = c.edges ++ [e] := Array.toList_push

theorem size_pushEdge : (c.pushEdge e).size = c.size := PositionTable.size_note

theorem contains_pushEdge : (c.pushEdge e).contains d = c.contains d := by
  rw [contains, contains, size_pushEdge]

theorem Indexed.pushEdge (h : c.Indexed) (ha : c.contains e.ancestor)
    (hd : c.contains e.descendant) : (c.pushEdge e).Indexed where
  size_eq := by
    rw [size_pushEdge, ← h.size_eq]
    exact PositionTable.size_note
  ends := by
    intro x hx
    rw [contains_pushEdge, contains_pushEdge]
    rw [edges_pushEdge] at hx
    rcases List.mem_append.mp hx with hx | hx
    · exact h.ends x hx
    · obtain rfl := List.mem_singleton.mp hx
      exact ⟨ha, hd⟩
  down := fun id => by
    have hrow := PositionTable.row_note ((contains_iff.mp ha).trans_eq h.size_eq.symm)
      c.edgeCount.toUInt32 id
    rw [edges_pushEdge, positionsOf_concat, ← h.down, length_edges]
    simp only [beq_iff_eq]
    exact hrow
  up := fun id => by
    have hrow := PositionTable.row_note (contains_iff.mp hd) c.edgeCount.toUInt32 id
    rw [edges_pushEdge, positionsOf_concat, ← h.up, length_edges]
    simp only [beq_iff_eq]
    exact hrow

theorem edges_foldl_pushEdge (es : List Edge) : (es.foldl pushEdge c).edges = c.edges ++ es := by
  induction es generalizing c with
  | nil => exact (List.append_nil _).symm
  | cons e es ih =>
    rw [List.foldl_cons, ih, edges_pushEdge, List.append_assoc]
    rfl

theorem size_foldl_pushEdge (es : List Edge) : (es.foldl pushEdge c).size = c.size := by
  induction es generalizing c with
  | nil => rfl
  | cons e es ih => rw [List.foldl_cons, ih, size_pushEdge]

theorem Indexed.foldl_pushEdge (h : c.Indexed) {es : List Edge}
    (hes : ∀ e ∈ es, c.contains e.ancestor ∧ c.contains e.descendant) :
    (es.foldl Closure.pushEdge c).Indexed := by
  induction es generalizing c with
  | nil => exact h
  | cons e es ih =>
    obtain ⟨⟨ha, hd⟩, hes⟩ := List.forall_mem_cons.mp hes
    refine ih (h.pushEdge ha hd) fun x hx => ?_
    rw [contains_pushEdge, contains_pushEdge]
    exact hes x hx

/-! ## One entry -/

/-- The closure with one more entry. -/
def extend (c : Closure) (id : EntryId) (parent? : Option EntryId) : Closure :=
  match parent? with
  | some parent => (c.pushSelf id).inherit id parent
  | none => c.pushSelf id

/-- **When an entry is linked**, and what the closure is then. -/
theorem insert_eq_ok_iff : c.insert id parent? = .ok c' ↔
    EntryId.ofSlot? c.size = some id ∧ (∀ p ∈ parent?, c.contains p) ∧
      c' = c.extend id parent? := by
  have hok : ∀ d : Closure, (Except.ok d : Except Halt Closure) = .ok c' ↔ c' = d := by
    intro d
    rw [Except.ok.injEq, eq_comm]
  unfold insert
  cases hnext : EntryId.ofSlot? c.size with
  | none => simp
  | some expected =>
    by_cases hid : id = expected
    · subst hid
      cases parent? with
      | none => simp [hok, extend]
      | some p => by_cases hp : c.contains p <;> simp [hp, hok, extend]
    · simp [hid, Ne.symm hid]

theorem slot_of_insert (hc : c.insert id parent? = .ok c') : id.slot = c.size :=
  (EntryId.ofSlot?_eq_some_iff.mp (insert_eq_ok_iff.mp hc).1).2

theorem edges_pushSelf : (c.pushSelf id).edges = c.edges ++ [⟨id, id, 0⟩] := edges_pushEdge

theorem size_pushSelf : (c.pushSelf id).size = c.size + 1 := by
  rw [pushSelf, size_pushEdge]
  exact Array.size_push _

theorem Indexed.pushSelf (h : c.Indexed) (hid : id.slot = c.size) : (c.pushSelf id).Indexed := by
  have hcontains : ∀ d : EntryId, ({ c with
      byAncestor := c.byAncestor.push #[],
      byDescendant := c.byDescendant.push #[] } : Closure).contains d ↔ d.slot < c.size + 1 := by
    intro d
    rw [contains_iff]
    exact iff_of_eq (congrArg (d.slot < ·) (Array.size_push _))
  refine Indexed.pushEdge ⟨?_, fun e he => ?_, fun id => ?_, fun id => ?_⟩ ?_ ?_
  · exact (Array.size_push _).trans ((congrArg (· + 1) h.size_eq).trans (Array.size_push _).symm)
  · obtain ⟨ha, hd⟩ := h.ends e he
    exact ⟨(hcontains _).mpr ((contains_iff.mp ha).trans (Nat.lt_succ_self _)),
      (hcontains _).mpr ((contains_iff.mp hd).trans (Nat.lt_succ_self _))⟩
  · exact PositionTable.row_push.trans (h.down id)
  · exact PositionTable.row_push.trans (h.up id)
  · exact (hcontains _).mpr (Nat.lt_succ_of_le hid.le)
  · exact (hcontains _).mpr (Nat.lt_succ_of_le hid.le)

theorem size_extend : (c.extend id parent?).size = c.size + 1 := by
  cases parent? with
  | none => exact size_pushSelf
  | some p => exact (size_foldl_pushEdge _).trans size_pushSelf

/-- What is added below a parent, as the tables give it. -/
theorem edges_extend_some (c : Closure) (id p : EntryId) :
    (c.extend id (some p)).edges = c.edges ++ ⟨id, id, 0⟩ ::
      ((c.pushSelf id).ancestors p).map fun kin => ⟨kin.id, id, kin.depth + 1⟩ := by
  rw [extend, inherit, edges_foldl_pushEdge, edges_pushSelf, List.append_assoc]
  rfl

theorem edges_pushSelf_isPrefix (c : Closure) (id : EntryId) (parent? : Option EntryId) :
    (c.pushSelf id).edges <+: (c.extend id parent?).edges := by
  cases parent? with
  | none => exact List.prefix_rfl
  | some p =>
    rw [extend, inherit, edges_foldl_pushEdge]
    exact List.prefix_append _ _

/-- All edges that an insertion adds lead up from the new entry. -/
theorem exists_edges_extend (c : Closure) (id : EntryId) (parent? : Option EntryId) :
    ∃ added, (c.extend id parent?).edges = c.edges ++ added ∧ ∀ e ∈ added, e.descendant = id := by
  cases parent? with
  | none => exact ⟨_, edges_pushSelf, by simp⟩
  | some p =>
    refine ⟨_, c.edges_extend_some id p, fun e he => ?_⟩
    rcases List.mem_cons.mp he with rfl | he
    · rfl
    · obtain ⟨k, -, rfl⟩ := List.mem_map.mp he
      rfl

/-- Edges are only ever added. -/
theorem edges_isPrefix_extend (c : Closure) (id : EntryId) (parent? : Option EntryId) :
    c.edges <+: (c.extend id parent?).edges := by
  obtain ⟨added, hedges, -⟩ := c.exists_edges_extend id parent?
  rw [hedges]
  exact List.prefix_append _ _

theorem Fits.of_extend (hs : (c.extend id parent?).Fits) : c.Fits := by
  have hle := (c.edges_isPrefix_extend id parent?).length_le
  rw [length_edges, length_edges] at hle
  exact hle.trans hs

/-- **An insertion keeps the tables up.** -/
theorem Indexed.extend (h : c.Indexed) (hid : id.slot = c.size)
    (hparent : ∀ p ∈ parent?, c.contains p) : (c.extend id parent?).Indexed := by
  have hself := h.pushSelf hid
  cases parent? with
  | none => exact hself
  | some p =>
    refine hself.foldl_pushEdge fun e he => ?_
    obtain ⟨kin, hkin, rfl⟩ := List.mem_map.mp he
    obtain ⟨x, hx, rfl⟩ := List.mem_map.mp hkin
    obtain ⟨position, -, hget⟩ := List.mem_filterMap.mp hx
    refine ⟨(hself.ends x (Array.mem_toList_iff.mpr (Array.mem_of_getElem? hget))).1, ?_⟩
    rw [contains_iff, size_pushSelf]
    exact Nat.lt_succ_of_le hid.le

/-- The lineage of an entry: itself, and one step further away all that is at or above its
parent. -/
def lineage (c : Closure) (id : EntryId) (parent? : Option EntryId) : List Kin :=
  ⟨id, 0⟩ ::
    match parent? with
    | some parent => (c.ancestors parent).map fun k => ⟨k.id, k.depth + 1⟩
    | none => []

/-- **What an insertion adds**: the edges along the lineage of the new entry. All that is read for
it stands before these edges. -/
theorem edges_extend_of_fits (h : c.Indexed) (hid : id.slot = c.size)
    (hparent : ∀ p ∈ parent?, c.contains p) (hs : (c.pushSelf id).Fits) :
    (c.extend id parent?).edges =
      c.edges ++ (c.lineage id parent?).map fun k => ⟨k.id, id, k.depth⟩ := by
  cases parent? with
  | none => exact edges_pushSelf
  | some p =>
    have hne : id ≠ p := by
      rintro rfl
      exact absurd (contains_iff.mp (hparent _ rfl)) hid.not_lt
    -- the new edge does not lead up from the parent
    have hancestors : (c.pushSelf id).ancestors p = c.ancestors p := by
      have hfits : (c.extend id none).Fits := hs
      rw [ancestors_eq (h.pushSelf hid) hs, ancestors_eq h hfits.of_extend, edges_pushSelf,
        List.filter_append]
      simp [hne]
    rw [edges_extend_some, hancestors, lineage, List.map_cons, List.map_map]
    rfl

theorem edges_extend (h : c.Indexed) (hid : id.slot = c.size)
    (hparent : ∀ p ∈ parent?, c.contains p) (hs : (c.extend id parent?).Fits) :
    (c.extend id parent?).edges =
      c.edges ++ (c.lineage id parent?).map fun k => ⟨k.id, id, k.depth⟩ := by
  have hle := (edges_pushSelf_isPrefix c id parent?).length_le
  rw [length_edges, length_edges] at hle
  exact edges_extend_of_fits h hid hparent (hle.trans hs)

/-! ## What is at and above an entry -/

theorem size_insert (hc : c.insert id parent? = .ok c') : c'.size = c.size + 1 := by
  obtain ⟨-, -, rfl⟩ := insert_eq_ok_iff.mp hc
  exact size_extend

theorem contains_insert (hc : c.insert id parent? = .ok c') :
    c'.contains d ↔ c.contains d ∨ d = id := by
  rw [contains_iff, contains_iff, size_insert hc, ← EntryId.slot_inj, slot_of_insert hc]
  omega

/-- A linked entry was not linked before. -/
theorem not_contains_of_insert (hc : c.insert id parent? = .ok c') : ¬ c.contains id := by
  rw [contains_iff, slot_of_insert hc]
  exact Nat.lt_irrefl _

theorem Indexed.insert (h : c.Indexed) (hc : c.insert id parent? = .ok c') : c'.Indexed := by
  have hid := slot_of_insert hc
  obtain ⟨-, hparent, rfl⟩ := insert_eq_ok_iff.mp hc
  exact h.extend hid hparent

theorem Fits.of_insert (hc : c.insert id parent? = .ok c') (hs : c'.Fits) : c.Fits := by
  obtain ⟨-, -, rfl⟩ := insert_eq_ok_iff.mp hc
  exact hs.of_extend

theorem edges_insert (h : c.Indexed) (hc : c.insert id parent? = .ok c') (hs : c'.Fits) :
    c'.edges = c.edges ++ (c.lineage id parent?).map fun k => ⟨k.id, id, k.depth⟩ := by
  have hid := slot_of_insert hc
  obtain ⟨-, hparent, rfl⟩ := insert_eq_ok_iff.mp hc
  exact edges_extend h hid hparent hs

/-- Linking an entry changes nothing above the others. -/
theorem ancestors_insert_of_contains (h : c.Indexed) (hc : c.insert id parent? = .ok c')
    (hs : c'.Fits) (hd : c.contains d) : c'.ancestors d = c.ancestors d := by
  have hne : id ≠ d := by
    rintro rfl
    exact not_contains_of_insert hc hd
  rw [ancestors_eq (h.insert hc) hs, ancestors_eq h (hs.of_insert hc), edges_insert h hc hs,
    List.filter_append, List.filter_map]
  simp [Function.comp_def, hne]

/-- The lineage is what is at and above the new entry. -/
theorem ancestors_insert_self (h : c.Indexed) (hc : c.insert id parent? = .ok c') (hs : c'.Fits) :
    c'.ancestors id = c.lineage id parent? := by
  have hnone : c.edges.filter (fun e => e.descendant == id) = [] := by
    refine List.filter_eq_nil_iff.mpr fun e he hid => ?_
    exact not_contains_of_insert hc (beq_iff_eq.mp hid ▸ (h.ends e he).2)
  rw [ancestors_eq (h.insert hc) hs, edges_insert h hc hs, List.filter_append, hnone,
    List.nil_append, List.filter_map]
  simp [Function.comp_def]

end Closure

end TreeQuery
