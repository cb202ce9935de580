import Mathlib.Algebra.GroupWithZero.Nat
import Mathlib.Data.List.Nodup
import TreeQuery.Proofs.Catalog.Positions

/-!
# The closure of a parent forest

A closure grows by links: an entry comes with the number of its parent, or as a root. The links are
a forest, and `Above links a d k` says that `a` is reached from `d` by going up `k` times in it,
without a word about lineages or edges.

* `Closure.Hangs`: the lineage of a linked entry is the entry itself and the lineage of its parent,
  one step further away. One `insert` makes it true of the new entry and keeps it for the others, so
  it holds of every entry of a closure that has grown from nothing (`Closure.Grown`).
* `Closure.depth?` follows parents (`Hangs.depth?_eq`). All that is said of catalogs uses this.
* **`linkAll_isClosureOf`**: after any requests, some of them refused, the edges, the lineages, the
  subtrees and the depths are those of the forest of the requests that were granted.

What is read from the tables is right as long as the closure `Fits`. That an entry is linked, below
which parent, and how many edges there are (`Grown.edgeCount_eq`), does not depend on it.
-/

namespace TreeQuery

/-! ## Numbers and positions -/

namespace EntryId

variable {i j : Nat}

/-- The number of the entry at a position, counted round behind the last position that has one. -/
def atSlot (slot : Nat) : EntryId := ofSlot (Fin.ofNat capacity slot)

theorem slot_atSlot (h : i < capacity) : (atSlot i).slot = i := Nat.mod_eq_of_lt h

theorem ofSlot?_eq_atSlot (h : i < capacity) : ofSlot? i = some (atSlot i) :=
  ofSlot?_eq_some_iff.mpr ⟨h, slot_atSlot h⟩

theorem atSlot_inj (hi : i < capacity) (hj : j < capacity) : atSlot i = atSlot j ↔ i = j := by
  rw [← slot_inj, slot_atSlot hi, slot_atSlot hj]

end EntryId

/-! ## Forests -/

/-- An entry and the parent that it is linked below; a root has none. -/
structure Link where
  id : EntryId
  parent? : Option EntryId
  deriving DecidableEq

/-- **Going up in a forest**: `a` is reached from the linked entry `d` in `k` steps. -/
inductive Above (links : List Link) : EntryId → EntryId → Nat → Prop where
  | self {l} : l ∈ links → Above links l.id l.id 0
  | step {l p a k} : l ∈ links → l.parent? = some p → Above links a p k →
      Above links a l.id (k + 1)

theorem above_zero_iff {links : List Link} {a d : EntryId} :
    Above links a d 0 ↔ a = d ∧ ∃ l ∈ links, l.id = d := by
  constructor
  · rintro ⟨hl⟩
    exact ⟨rfl, _, hl, rfl⟩
  · rintro ⟨rfl, l, hl, rfl⟩
    exact .self hl

theorem above_succ_iff {links : List Link} {a d : EntryId} {k : Nat} :
    Above links a d (k + 1) ↔
      ∃ l ∈ links, l.id = d ∧ ∃ p, l.parent? = some p ∧ Above links a p k := by
  constructor
  · intro h
    cases h with
    | step hl hp habove => exact ⟨_, hl, rfl, _, hp, habove⟩
  · rintro ⟨l, hl, rfl, p, hp, habove⟩
    exact .step hl hp habove

namespace Closure

variable {c c' : Closure} {id a d r : EntryId} {parent? : Option EntryId} {links : List Link}

/-! ## Lineages of entries -/

theorem lineage_none : c.lineage id none = [⟨id, 0⟩] := rfl

theorem lineage_some {p : EntryId} : c.lineage id (some p) =
    ⟨id, 0⟩ :: (c.ancestors p).map fun k => ⟨k.id, k.depth + 1⟩ := rfl

/-! ## Entries below their parents -/

/-- **Where an entry hangs**: it is linked below that parent, which came before it. Its lineage
can be read as long as the closure fits. -/
structure Hangs (c : Closure) (d : EntryId) (parent? : Option EntryId) : Prop where
  linked : c.contains d
  parentFirst : ∀ p ∈ parent?, p.slot < d.slot
  ancestors_eq : c.Fits → c.ancestors d = c.lineage d parent?

theorem Hangs.contains_parent (h : c.Hangs d parent?) {p : EntryId} (hp : p ∈ parent?) :
    c.contains p := by
  have hlt := h.parentFirst p hp
  have hd := contains_iff.mp h.linked
  exact contains_iff.mpr (Nat.lt_trans hlt hd)

/-- A lineage is the same after an insertion. -/
theorem lineage_insert {p? : Option EntryId} (h : c.Indexed) (hc : c.insert id p? = .ok c')
    (hs : c'.Fits) (hparent : ∀ p ∈ parent?, c.contains p) :
    c'.lineage d parent? = c.lineage d parent? := by
  cases parent? with
  | none => rfl
  | some p =>
    rw [lineage_some, lineage_some, ancestors_insert_of_contains h hc hs (hparent p rfl)]

theorem Hangs.insert {p? : Option EntryId} (hd : c.Hangs d parent?) (h : c.Indexed)
    (hc : c.insert id p? = .ok c') : c'.Hangs d parent? := by
  refine ⟨(contains_insert hc).mpr (.inl hd.linked), hd.parentFirst, fun hs => ?_⟩
  rw [ancestors_insert_of_contains h hc hs hd.linked, hd.ancestors_eq (hs.of_insert hc),
    lineage_insert h hc hs fun p hp => hd.contains_parent hp]

theorem hangs_insert (h : c.Indexed) (hc : c.insert id parent? = .ok c') :
    c'.Hangs id parent? := by
  obtain ⟨-, hparent, -⟩ := insert_eq_ok_iff.mp hc
  refine ⟨(contains_insert hc).mpr (.inr rfl), fun p hp => ?_, fun hs => ?_⟩
  · rw [slot_of_insert hc]
    exact contains_iff.mp (hparent p hp)
  · rw [ancestors_insert_self h hc hs, lineage_insert h hc hs hparent]

/-- The lineage of an entry, step by step. -/
theorem Hangs.getElem?_succ (h : c.Hangs d parent?) (hs : c.Fits) (k : Nat) :
    (c.ancestors d)[k + 1]? =
      (parent?.bind fun p => (c.ancestors p)[k]?).map fun kin => ⟨kin.id, kin.depth + 1⟩ := by
  rw [h.ancestors_eq hs]
  cases parent? with
  | none => rfl
  | some p => rw [lineage_some, List.getElem?_cons_succ, List.getElem?_map, Option.bind_some]

theorem Hangs.getElem?_zero (h : c.Hangs d parent?) (hs : c.Fits) :
    (c.ancestors d)[0]? = some ⟨d, 0⟩ := by
  rw [h.ancestors_eq hs]
  rfl

/-- **The distance to an entry above** is one more than that from the parent. -/
theorem Hangs.depth?_eq (h : c.Hangs d parent?) (hs : c.Fits) (a : EntryId) :
    c.depth? a d = if d = a then some 0 else (parent?.bind (c.depth? a)).map (· + 1) := by
  rw [depth?, h.ancestors_eq hs]
  by_cases hd : d = a
  · cases parent? <;> simp [hd, lineage_none, lineage_some]
  · have hne : (d == a) = false := by simpa using hd
    cases parent? with
    | none => simp [lineage_none, hne, hd]
    | some p =>
      rw [lineage_some, List.find?_cons_of_neg (by simpa using hd), List.find?_map, Option.map_map,
        if_neg hd, Option.bind_some, depth?, Option.map_map]
      rfl

/-- No other entry is at no distance. -/
theorem Hangs.depth?_eq_zero_iff (h : c.Hangs d parent?) (hs : c.Fits) :
    c.depth? a d = some 0 ↔ d = a := by
  rw [h.depth?_eq hs]
  by_cases hd : d = a
  · simp [hd]
  · simp only [hd, if_false, iff_false]
    cases parent?.bind (c.depth? a) <;> simp

/-- **One step up is the parent**, if the parent hangs somewhere itself. -/
theorem Hangs.depth?_eq_one_iff (h : c.Hangs d parent?) (hs : c.Fits)
    (hparent : ∀ p ∈ parent?, ∃ q?, c.Hangs p q?) : c.depth? a d = some 1 ↔ parent? = some a := by
  rw [h.depth?_eq hs]
  cases parent? with
  | none => split <;> simp
  | some p =>
    obtain ⟨q?, hp⟩ := hparent p rfl
    have hzero := hp.depth?_eq_zero_iff hs (a := a)
    by_cases hd : d = a
    · have hne : p ≠ a := by
        rintro rfl
        exact (h.parentFirst p rfl).ne (hd ▸ rfl)
      simp [hd, hne]
    · simp [hd, Option.map_eq_some_iff, hzero]

/-! ## Growing -/

/-- **A closure that has grown from nothing** by these links. -/
inductive Grown : List Link → Closure → Prop where
  | empty : Grown [] {}
  | insert {links c c' l} : Grown links c → c.insert l.id l.parent? = .ok c' →
      Grown (links ++ [l]) c'

/-- The numbers of the linked entries. -/
def ids (c : Closure) : List EntryId :=
  (List.range c.size).filterMap EntryId.ofSlot?

theorem contains_of_mem_ids (h : d ∈ c.ids) : c.contains d := by
  obtain ⟨i, hi, hd⟩ := List.mem_filterMap.mp h
  rw [contains_iff, (EntryId.ofSlot?_eq_some_iff.mp hd).2]
  exact List.mem_range.mp hi

theorem ids_increasing (c : Closure) : c.ids.Pairwise fun x y => x.slot < y.slot := by
  refine List.pairwise_filterMap.mpr (List.pairwise_lt_range.imp fun hlt x hx y hy => ?_)
  rw [(EntryId.ofSlot?_eq_some_iff.mp hx).2, (EntryId.ofSlot?_eq_some_iff.mp hy).2]
  exact hlt

theorem ids_insert (hc : c.insert id parent? = .ok c') : c'.ids = c.ids ++ [id] := by
  rw [ids, ids, size_insert hc, List.range_succ, List.filterMap_append,
    List.filterMap_cons_some (insert_eq_ok_iff.mp hc).1, List.filterMap_nil]

theorem Grown.indexed (h : Grown links c) : c.Indexed := by
  induction h with
  | empty => exact ⟨rfl, fun e he => (nomatch he), fun _ => rfl, fun _ => rfl⟩
  | insert _ hc ih => exact ih.insert hc

theorem Grown.length_eq (h : Grown links c) : links.length = c.size := by
  induction h with
  | empty => rfl
  | insert _ hc ih => rw [List.length_append, ih, size_insert hc, List.length_singleton]

theorem Grown.map_id (h : Grown links c) : links.map Link.id = c.ids := by
  induction h with
  | empty => rfl
  | insert _ hc ih => rw [List.map_append, ih, ids_insert hc, List.map_singleton]

theorem Grown.contains_iff_exists (h : Grown links c) :
    c.contains d ↔ ∃ l ∈ links, l.id = d := by
  induction h with
  | empty => simp [contains_iff, size]
  | insert _ hc ih =>
    simp only [contains_insert hc, ih, List.mem_append, List.mem_singleton, or_and_right,
      exists_or, exists_eq_left]
    rw [eq_comm]

theorem Grown.hangs (h : Grown links c) {l : Link} (hl : l ∈ links) :
    c.Hangs l.id l.parent? := by
  induction h with
  | empty => cases hl
  | insert hgrown hc ih =>
    rcases List.mem_append.mp hl with hl | hl
    · exact (ih hl).insert hgrown.indexed hc
    · obtain rfl := List.mem_singleton.mp hl
      exact hangs_insert hgrown.indexed hc

/-- Every linked entry hangs somewhere. -/
theorem Grown.exists_hangs (h : Grown links c) (hd : c.contains d) :
    ∃ parent?, c.Hangs d parent? := by
  obtain ⟨l, hl, rfl⟩ := h.contains_iff_exists.mp hd
  exact ⟨l.parent?, h.hangs hl⟩

/-! ## Lineages -/

section

variable (h : Grown links c) (hs : c.Fits)

include h hs

/-- Up the forest the numbers get smaller. -/
theorem Grown.lineage_decreasing (d : EntryId) :
    (c.ancestors d).Pairwise (fun x y => y.id.slot < x.id.slot) ∧
      ∀ kin ∈ c.ancestors d, kin.id.slot ≤ d.slot := by
  -- parents come first, so the induction is on the position of the entry
  induction hn : d.slot using Nat.strongRecOn generalizing d with
  | ind n ih =>
    by_cases hd : c.contains d
    · obtain ⟨parent?, hangs⟩ := h.exists_hangs hd
      rw [hangs.ancestors_eq hs]
      cases parent? with
      | none => simp [lineage_none, hn]
      | some p =>
        rw [lineage_some]
        have hlt := hangs.parentFirst p rfl
        obtain ⟨hpairs, hle⟩ := ih p.slot (hn ▸ hlt) p rfl
        refine ⟨List.pairwise_cons.mpr ⟨?_, List.pairwise_map.mpr hpairs⟩, ?_⟩
        · intro kin hkin
          obtain ⟨k, hk, rfl⟩ := List.mem_map.mp hkin
          exact Nat.lt_of_le_of_lt (hle k hk) hlt
        · intro kin hkin
          rcases List.mem_cons.mp hkin with rfl | hkin
          · exact hn.le
          · obtain ⟨k, hk, rfl⟩ := List.mem_map.mp hkin
            exact ((hle k hk).trans hlt.le).trans hn.le
    · rw [ancestors_of_not_contains hd]
      simp

/-- The distance is what the lineage says. -/
theorem Grown.depth?_eq_some_iff {k : Nat} :
    c.depth? a d = some k ↔ ⟨a, k⟩ ∈ c.ancestors d := by
  have hpairs := (h.lineage_decreasing hs d).1
  unfold depth?
  generalize c.ancestors d = kins at hpairs
  induction kins with
  | nil => simp
  | cons x xs ih =>
    rw [List.pairwise_cons] at hpairs
    rw [List.find?_cons, List.mem_cons]
    by_cases hx : x.id = a
    · have hnot : ⟨a, k⟩ ∉ xs := by
        intro hmem
        have hlt := hpairs.1 _ hmem
        rw [← hx] at hlt
        exact Nat.lt_irrefl _ hlt
      obtain ⟨xid, xdepth⟩ := x
      simp only at hx
      simp [hnot, hx, eq_comm]
    · have hbeq : (x.id == a) = false := by simpa using hx
      have hne : (⟨a, k⟩ : Kin) ≠ x := by
        rintro rfl
        exact hx rfl
      simp only [hbeq, hne, false_or]
      exact ih hpairs.2

/-- What is at and below an entry, by distance. -/
theorem Grown.mem_subtree_iff {kin : Kin} :
    kin ∈ c.subtree r ↔ c.depth? r kin.id = some kin.depth := by
  rw [h.depth?_eq_some_iff hs, ← mem_edges_iff h.indexed hs, subtree_eq h.indexed hs, List.mem_map]
  constructor
  · rintro ⟨⟨x, d, k⟩, he, rfl⟩
    obtain ⟨hmem, hx⟩ := List.mem_filter.mp he
    obtain rfl : x = r := by simpa using hx
    exact hmem
  · intro he
    exact ⟨_, List.mem_filter.mpr ⟨he, by simp⟩, rfl⟩

end

/-! ## The order of edges -/

/-- The edges that lead up from an entry. -/
def edgesOf (c : Closure) (d : EntryId) : List Edge :=
  (c.ancestors d).map fun kin => ⟨kin.id, d, kin.depth⟩

/-- **The edges are the lineages**, one after the other. -/
theorem Grown.edges_eq (h : Grown links c) (hs : c.Fits) : c.edges = c.ids.flatMap c.edgesOf := by
  induction h with
  | empty => rfl
  | insert hgrown hc ih =>
    rw [edges_insert hgrown.indexed hc hs, ih (hs.of_insert hc), ids_insert hc,
      List.flatMap_append, List.flatMap_singleton, edgesOf,
      ancestors_insert_self hgrown.indexed hc hs]
    refine congrArg (· ++ _) (List.flatMap_congr fun d hd => ?_)
    rw [edgesOf, edgesOf,
      ancestors_insert_of_contains hgrown.indexed hc hs (contains_of_mem_ids hd)]

section

variable (h : Grown links c) (hs : c.Fits)

include h hs

theorem Grown.subtree_increasing (r : EntryId) :
    (c.subtree r).Pairwise fun x y => x.id.slot < y.id.slot := by
  rw [subtree_eq h.indexed hs, h.edges_eq hs, List.filter_flatMap, List.map_flatMap,
    List.pairwise_flatMap]
  refine ⟨fun d _ => ?_, c.ids_increasing.imp fun hlt x hx y hy => ?_⟩
  · -- an entry is in a lineage once
    refine List.pairwise_map.mpr (List.pairwise_filter.mpr (List.pairwise_map.mpr ?_))
    refine (h.lineage_decreasing hs d).1.imp fun {x y} hlt hx hy => ?_
    have hxr : x.id = r := beq_iff_eq.mp hx
    have hyr : y.id = r := beq_iff_eq.mp hy
    rw [hxr, hyr] at hlt
    exact absurd hlt (Nat.lt_irrefl _)
  · obtain ⟨_, he, rfl⟩ := List.mem_map.mp hx
    obtain ⟨_, he', rfl⟩ := List.mem_map.mp hy
    obtain ⟨_, -, rfl⟩ := List.mem_map.mp (List.mem_of_mem_filter he)
    obtain ⟨_, -, rfl⟩ := List.mem_map.mp (List.mem_of_mem_filter he')
    exact hlt

theorem Grown.pairs_nodup : (c.edges.map fun e => (e.ancestor, e.descendant)).Nodup := by
  have hmap : (c.edges.map fun e => (e.ancestor, e.descendant)) =
      c.ids.flatMap fun d => (c.ancestors d).map fun kin => (kin.id, d) := by
    simp only [h.edges_eq hs, edgesOf, List.map_flatMap, List.map_map]
    rfl
  rw [hmap, List.nodup_flatMap]
  constructor
  · intro d _
    refine List.pairwise_map.mpr ((h.lineage_decreasing hs d).1.imp fun hlt heq => ?_)
    rw [(Prod.mk.inj heq).1] at hlt
    exact Nat.lt_irrefl _ hlt
  · refine c.ids_increasing.imp fun hlt pair hx hy => ?_
    obtain ⟨_, -, rfl⟩ := List.mem_map.mp hx
    obtain ⟨_, -, heq⟩ := List.mem_map.mp hy
    rw [(Prod.mk.inj heq).2] at hlt
    exact Nat.lt_irrefl _ hlt

/-! ## Going up in the forest -/

/-- **Lineages go up the forest.** -/
theorem Grown.getElem?_ancestors_iff {k : Nat} {kin : Kin} :
    (c.ancestors d)[k]? = some kin ↔ kin.depth = k ∧ Above links kin.id d k := by
  -- one step up at a time
  induction k generalizing d kin with
  | zero =>
    rw [above_zero_iff]
    constructor
    · intro hkin
      have hd := contains_of_mem_ancestors (List.mem_of_getElem? hkin)
      obtain ⟨l, hl, rfl⟩ := h.contains_iff_exists.mp hd
      rw [(h.hangs hl).getElem?_zero hs] at hkin
      obtain rfl := Option.some.inj hkin
      exact ⟨rfl, rfl, l, hl, rfl⟩
    · rintro ⟨hdepth, hid, l, hl, rfl⟩
      rw [(h.hangs hl).getElem?_zero hs]
      cases kin
      simp_all
  | succ k ih =>
    rw [above_succ_iff]
    constructor
    · intro hkin
      have hd := contains_of_mem_ancestors (List.mem_of_getElem? hkin)
      obtain ⟨l, hl, rfl⟩ := h.contains_iff_exists.mp hd
      rw [(h.hangs hl).getElem?_succ hs] at hkin
      obtain ⟨up, hup, rfl⟩ := Option.map_eq_some_iff.mp hkin
      obtain ⟨p, hp, hup⟩ := Option.bind_eq_some_iff.mp hup
      obtain ⟨hdepth, habove⟩ := ih.mp hup
      exact ⟨congrArg (· + 1) hdepth, l, hl, rfl, p, hp, habove⟩
    · rintro ⟨hdepth, l, hl, rfl, p, hp, habove⟩
      have hup : (c.ancestors p)[k]? = some ⟨kin.id, k⟩ := ih.mpr ⟨rfl, habove⟩
      rw [(h.hangs hl).getElem?_succ hs, hp, Option.bind_some, hup, Option.map_some, ← hdepth]

theorem Grown.mem_ancestors_iff {k : Nat} :
    ⟨a, k⟩ ∈ c.ancestors d ↔ Above links a d k := by
  rw [List.mem_iff_getElem?]
  constructor
  · rintro ⟨i, hi⟩
    obtain ⟨rfl, habove⟩ := (h.getElem?_ancestors_iff hs).mp hi
    exact habove
  · intro habove
    exact ⟨k, (h.getElem?_ancestors_iff hs).mpr ⟨rfl, habove⟩⟩

end

/-! ## How many edges there are -/

/-- Linking an entry leads up from no other. -/
theorem length_ancestors_insert_of_contains (h : c.Indexed) (hc : c.insert id parent? = .ok c')
    (hd : c.contains d) : (c'.ancestors d).length = (c.ancestors d).length := by
  have hne : ¬ c.contains id := not_contains_of_insert hc
  rw [length_ancestors (h.insert hc), length_ancestors h]
  obtain ⟨-, -, rfl⟩ := insert_eq_ok_iff.mp hc
  obtain ⟨added, hedges, hadded⟩ := c.exists_edges_extend id parent?
  have hnone : added.countP (fun e => e.descendant == d) = 0 := by
    refine List.countP_eq_zero.mpr fun e he heq => ?_
    rw [beq_iff_eq, hadded e he] at heq
    exact hne (heq ▸ hd)
  rw [hedges, List.countP_append, hnone, Nat.add_zero]

/-- No edge leads up from an entry that is not linked. -/
theorem countP_of_not_contains (h : c.Indexed) (hd : ¬ c.contains d) :
    c.edges.countP (fun e => e.descendant == d) = 0 := by
  rw [← length_ancestors h, ancestors_of_not_contains hd, List.length_nil]

/-- As many edges lead up from a new entry as from its parent, and the one to itself. -/
theorem length_ancestors_insert_self (h : c.Indexed) (hc : c.insert id parent? = .ok c') :
    (c'.ancestors id).length = (parent?.elim 0 fun p => (c.ancestors p).length) + 1 := by
  have hnew := countP_of_not_contains h (not_contains_of_insert hc)
  have hself := h.pushSelf (slot_of_insert hc)
  rw [length_ancestors (h.insert hc)]
  cases parent? with
  | none =>
    obtain ⟨-, -, rfl⟩ := insert_eq_ok_iff.mp hc
    rw [extend, edges_pushSelf, List.countP_append, hnew]
    simp
  | some p =>
    have hne : id ≠ p := by
      rintro rfl
      exact not_contains_of_insert hc ((insert_eq_ok_iff.mp hc).2.1 _ rfl)
    obtain ⟨-, -, rfl⟩ := insert_eq_ok_iff.mp hc
    have hlength : ((c.pushSelf id).ancestors p).length = (c.ancestors p).length := by
      rw [length_ancestors hself, length_ancestors h, edges_pushSelf, List.countP_append]
      simp [hne]
    rw [edges_extend_some, List.countP_append, hnew, List.countP_cons, List.countP_map,
      List.countP_eq_length.mpr fun kin _ => by simp, hlength]
    simp

/-- All edges that come with an entry lead up from it. -/
theorem edgeCount_insert (h : c.Indexed) (hc : c.insert id parent? = .ok c') :
    c'.edgeCount = c.edgeCount + (c'.ancestors id).length := by
  have hnew := countP_of_not_contains h (not_contains_of_insert hc)
  rw [length_ancestors (h.insert hc), ← length_edges, ← length_edges]
  obtain ⟨-, -, rfl⟩ := insert_eq_ok_iff.mp hc
  obtain ⟨added, hedges, hadded⟩ := c.exists_edges_extend id parent?
  rw [hedges, List.length_append, List.countP_append, hnew, Nat.zero_add,
    List.countP_eq_length.mpr fun e he => beq_iff_eq.mpr (hadded e he)]

theorem Grown.length_ancestors_eq (h : Grown links c) {l : Link} (hl : l ∈ links) :
    (c.ancestors l.id).length = (l.parent?.elim 0 fun p => (c.ancestors p).length) + 1 := by
  induction h with
  | empty => cases hl
  | @insert links c c' new hgrown hc ih =>
    -- neither the entry nor its parent is the new one
    have hparent : ∀ {l : Link}, (∀ p ∈ l.parent?, c.contains p) →
        (l.parent?.elim 0 fun p => (c'.ancestors p).length) =
          l.parent?.elim 0 fun p => (c.ancestors p).length := by
      intro l hlinked
      cases hp : l.parent? with
      | none => rfl
      | some p => exact length_ancestors_insert_of_contains hgrown.indexed hc (hlinked p hp)
    rcases List.mem_append.mp hl with hl | hl
    · have hangs := hgrown.hangs hl
      rw [length_ancestors_insert_of_contains hgrown.indexed hc hangs.linked, ih hl,
        hparent fun p hp => hangs.contains_parent hp]
    · obtain rfl := List.mem_singleton.mp hl
      rw [length_ancestors_insert_self hgrown.indexed hc, hparent (insert_eq_ok_iff.mp hc).2.1]

/-- As many edges lead up from an entry as there are steps to its root, and one more. -/
theorem Grown.exists_root (h : Grown links c) (hd : c.contains d) :
    ∃ root k, ⟨root, none⟩ ∈ links ∧ Above links root d k ∧ (c.ancestors d).length = k + 1 := by
  induction hn : d.slot using Nat.strongRecOn generalizing d with
  | ind n ih =>
    obtain ⟨⟨d, parent?⟩, hl, rfl⟩ := h.contains_iff_exists.mp hd
    have hangs := h.hangs hl
    rw [h.length_ancestors_eq hl]
    cases parent? with
    | none => exact ⟨d, 0, hl, .self hl, rfl⟩
    | some p =>
      have hlt : p.slot < n := hn ▸ hangs.parentFirst p rfl
      obtain ⟨root, k, hroot, habove, hlength⟩ := ih p.slot hlt (hangs.contains_parent rfl) rfl
      exact ⟨root, k + 1, hroot, .step hl rfl habove, congrArg (· + 1) hlength⟩

theorem Grown.edgeCount_eq_sum (h : Grown links c) :
    c.edgeCount = (links.map fun l => (c.ancestors l.id).length).sum := by
  induction h with
  | empty => rfl
  | insert hgrown hc ih =>
    rw [edgeCount_insert hgrown.indexed hc, ih, List.map_append, List.sum_append,
      List.map_singleton, List.sum_singleton]
    refine congrArg (List.sum · + _) (List.map_congr_left fun l hl => ?_)
    exact (length_ancestors_insert_of_contains hgrown.indexed hc (hgrown.hangs hl).linked).symm

/-- **An entry has one edge more than there are steps up to its root.** -/
theorem Grown.edgeCount_eq (h : Grown links c) : ∃ depth : EntryId → Nat,
    (∀ l ∈ links, ∃ root, ⟨root, none⟩ ∈ links ∧ Above links root l.id (depth l.id)) ∧
      c.edgeCount = (links.map fun l => depth l.id + 1).sum := by
  refine ⟨fun d => (c.ancestors d).length - 1, fun l hl => ?_, ?_⟩
  · obtain ⟨root, k, hroot, habove, hlength⟩ := h.exists_root (h.hangs hl).linked
    refine ⟨root, hroot, ?_⟩
    simp only [hlength]
    exact habove
  · rw [h.edgeCount_eq_sum]
    refine congrArg List.sum (List.map_congr_left fun l hl => ?_)
    have hpos : 0 < (c.ancestors l.id).length := by
      rw [h.length_ancestors_eq hl]
      exact Nat.succ_pos _
    exact (Nat.sub_add_cancel hpos).symm

/-! ## Requests -/

/-- The closure after a request. A request that is refused changes nothing. -/
def link (c : Closure) (l : Link) : Closure :=
  match c.insert l.id l.parent? with
  | .ok c' => c'
  | .error _ => c

/-- The closure after requests, one after the other. -/
def linkAll (c : Closure) (requests : List Link) : Closure :=
  requests.foldl link c

/-- The requests that are granted. -/
def granted (c : Closure) : List Link → List Link
  | [] => []
  | l :: requests =>
    match c.insert l.id l.parent? with
    | .ok c' => l :: c'.granted requests
    | .error _ => c.granted requests

theorem Grown.linkAll (h : Grown links c) (requests : List Link) :
    Grown (links ++ c.granted requests) (c.linkAll requests) := by
  induction requests generalizing links c with
  | nil =>
    rw [granted, List.append_nil]
    exact h
  | cons l requests ih =>
    rw [granted, Closure.linkAll, List.foldl_cons, Closure.link]
    cases hc : c.insert l.id l.parent? with
    | ok c' =>
      have hgrown := ih (h.insert hc)
      rw [List.append_assoc] at hgrown
      exact hgrown
    | error _ => exact ih h

/-- **The closure of a forest**: what is to be found in it is what the links say. -/
structure IsClosureOf (c : Closure) (links : List Link) : Prop where
  /-- The next link is granted if the number is the next one and the parent is linked. -/
  insert_iff : ∀ l : Link, (∃ c', c.insert l.id l.parent? = .ok c') ↔
    EntryId.ofSlot? links.length = some l.id ∧ ∀ p ∈ l.parent?, ∃ m ∈ links, m.id = p
  edges_iff : ∀ a d k, ⟨a, d, k⟩ ∈ c.edges ↔ Above links a d k
  /-- There is one edge between two entries at most. -/
  pairs_nodup : (c.edges.map fun e => (e.ancestor, e.descendant)).Nodup
  /-- An entry has one edge more than there are steps up to its root. -/
  edgeCount_eq : ∃ depth : EntryId → Nat,
    (∀ l ∈ links, ∃ root, ⟨root, none⟩ ∈ links ∧ Above links root l.id (depth l.id)) ∧
      c.edgeCount = (links.map fun l => depth l.id + 1).sum
  ancestors_iff : ∀ d k kin, (c.ancestors d)[k]? = some kin ↔
    kin.depth = k ∧ Above links kin.id d k
  ancestors_decreasing : ∀ d, (c.ancestors d).Pairwise fun x y => y.id.number < x.id.number
  subtree_iff : ∀ r kin, kin ∈ c.subtree r ↔ Above links r kin.id kin.depth
  subtree_increasing : ∀ r, (c.subtree r).Pairwise fun x y => x.id.number < y.id.number
  depth?_iff : ∀ a d k, c.depth? a d = some k ↔ ⟨a, d, k⟩ ∈ c.edges
  unlinked : ∀ d, (∀ l ∈ links, l.id ≠ d) → c.subtree d = [] ∧ c.ancestors d = []

theorem Grown.insert_iff (h : Grown links c) (l : Link) :
    (∃ c', c.insert l.id l.parent? = .ok c') ↔
      EntryId.ofSlot? links.length = some l.id ∧ ∀ p ∈ l.parent?, ∃ m ∈ links, m.id = p := by
  simp only [insert_eq_ok_iff, h.length_eq, ← h.contains_iff_exists]
  constructor
  · rintro ⟨_, hid, hparent, -⟩
    exact ⟨hid, hparent⟩
  · rintro ⟨hid, hparent⟩
    exact ⟨_, hid, hparent, rfl⟩

theorem Grown.unlinked (h : Grown links c) (hd : ∀ l ∈ links, l.id ≠ d) :
    c.subtree d = [] ∧ c.ancestors d = [] := by
  have hcontains : ¬ c.contains d := by
    rw [h.contains_iff_exists]
    rintro ⟨l, hl, hid⟩
    exact hd l hl hid
  exact ⟨subtree_of_not_contains h.indexed hcontains, ancestors_of_not_contains hcontains⟩

theorem Grown.isClosureOf (h : Grown links c) (hs : c.Fits) : c.IsClosureOf links where
  insert_iff := h.insert_iff
  edges_iff := fun _ _ _ => (mem_edges_iff h.indexed hs).trans (h.mem_ancestors_iff hs)
  pairs_nodup := h.pairs_nodup hs
  edgeCount_eq := h.edgeCount_eq
  ancestors_iff := fun _ _ _ => h.getElem?_ancestors_iff hs
  ancestors_decreasing := fun d => by
    simpa only [EntryId.number_eq, Nat.add_lt_add_iff_right] using (h.lineage_decreasing hs d).1
  subtree_iff := fun _ _ => (h.mem_subtree_iff hs).trans
    ((h.depth?_eq_some_iff hs).trans (h.mem_ancestors_iff hs))
  subtree_increasing := fun r => by
    simpa only [EntryId.number_eq, Nat.add_lt_add_iff_right] using h.subtree_increasing hs r
  depth?_iff := fun _ _ _ => (h.depth?_eq_some_iff hs).trans (mem_edges_iff h.indexed hs).symm
  unlinked := fun _ => h.unlinked

/-- **The closure is that of the parent forest**, whatever was asked for, if it fits. -/
theorem linkAll_isClosureOf (requests : List Link) (h : (linkAll {} requests).Fits) :
    (linkAll {} requests).IsClosureOf (granted {} requests) :=
  (Grown.empty.linkAll requests).isClosureOf h

/-- Two requests are refused: one comes too early, one names a parent that is not there. -/
theorem linkAll_isClosureOf_refused :
    let requests : List Link :=
      [⟨.ofSlot 0, none⟩, ⟨.ofSlot 2, some (.ofSlot 0)⟩, ⟨.ofSlot 1, some (.ofSlot 0)⟩,
        ⟨.ofSlot 2, some (.ofSlot 4)⟩, ⟨.ofSlot 2, some (.ofSlot 1)⟩, ⟨.ofSlot 3, none⟩]
    (linkAll {} requests).Fits ∧
      granted {} requests = [⟨.ofSlot 0, none⟩, ⟨.ofSlot 1, some (.ofSlot 0)⟩,
        ⟨.ofSlot 2, some (.ofSlot 1)⟩, ⟨.ofSlot 3, none⟩] ∧
      (linkAll {} requests).IsClosureOf (granted {} requests) := by
  intro requests
  have hfits : (linkAll {} requests).Fits := by
    unfold Fits
    decide +kernel
  exact ⟨hfits, by decide +kernel, linkAll_isClosureOf requests hfits⟩

end Closure

end TreeQuery
