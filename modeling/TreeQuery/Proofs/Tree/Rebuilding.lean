import Mathlib.Data.List.Induction
import Mathlib.Data.List.Nodup
import Mathlib.Data.Set.Function
import TreeQuery.Proofs.Catalog.Subtrees
import TreeQuery.Proofs.Tree.Paths

/-!
# A walk rebuilds the tree

The entries of a walk are those that its visits bring, one after the other, and a directory has the
number of the first entry of its visit (`Taken.stored`, `Taken.mem_directories_iff`). The visits of
a tidy tree bring its nodes in the order of their places. So the entry of a node has the number of
the node's place (`Node.idOf`), and it hangs below the entry of the place above, because its
directory is the path of that place.

**`takeIn_visits`**: an empty catalog takes in the visits of a tidy tree, and then it is the tree
node by node (`Node.Rebuilt`): names and records, parents, subtrees, paths and counts.
-/

namespace TreeQuery

/-! ## Where the entries of a visit stand -/

/-- The entries that a visit brings. -/
def DirectoryVisit.brings (v : DirectoryVisit) (naming : Naming) : List NewEntry :=
  (v.path?.map (v.entries naming)).getD []

theorem DirectoryVisit.brings_eq {v : DirectoryVisit} {naming : Naming} {path : RelPath}
    (h : v.path? = some path) : v.brings naming = v.entries naming path := by
  rw [brings, h]
  rfl

namespace Indexing

variable {naming : Naming} {s : Indexing} {vs : List DirectoryVisit} {path : RelPath} {id : EntryId}

/-- **The entries of a walk**, in their order. -/
theorem Taken.stored (h : Taken (start {} naming) vs s) :
    s.catalog.store.toList.map Entry.toNewEntry = vs.flatMap fun v => v.brings naming := by
  induction h with
  | nil =>
    obtain ⟨r, -, hcatalog⟩ := start_catalog naming
    rw [hcatalog]
    rfl
  | visit htaken hadmits ih =>
    rw [catalog_enter, Catalog.toList_enter hadmits.room, ih, htaken.naming_eq, start_naming,
      List.flatMap_append, List.flatMap_singleton, DirectoryVisit.brings_eq hadmits.path?_eq]

theorem Taken.size_store (h : Taken (start {} naming) vs s) :
    s.catalog.store.size = (vs.flatMap fun v => v.brings naming).length := by
  rw [← h.stored, List.length_map, EntryStore.toList, Array.length_toList, EntryStore.size]

/-- **The number of a directory**: that of the first entry of its visit. -/
theorem Taken.mem_directories_iff (h : Taken (start {} naming) vs s) :
    (path, id) ∈ s.catalog.registry.directories ↔ ∃ before v after, vs = before ++ v :: after ∧
      v.path? = some path ∧ id.slot = (before.flatMap fun v => v.brings naming).length := by
  induction h with
  | nil =>
    obtain ⟨r, hr, hcatalog⟩ := start_catalog naming
    rw [hcatalog, hr]
    simp
  | @visit vs s v p htaken hadmits ih =>
    have hpath := hadmits.path?_eq
    obtain ⟨next, hnext⟩ := hadmits.room.exists_nextId
    have hslot := (Catalog.nextId?_eq_some_iff.mp hnext).2
    rw [Catalog.size, htaken.size_store] at hslot
    rw [catalog_enter, Catalog.registry_enter hnext, Registry.add, List.mem_append, ih,
      List.mem_singleton, Prod.mk.injEq, ← EntryId.slot_inj, hslot]
    constructor
    · rintro (⟨before, w, after, rfl, hw, hid⟩ | ⟨rfl, hid⟩)
      · exact ⟨before, w, after ++ [v], by simp, hw, hid⟩
      · exact ⟨vs, v, [], rfl, hpath, hid⟩
    · rintro ⟨before, w, after, hsplit, hw, hid⟩
      rcases append_cons_eq_concat_iff.mp hsplit.symm with ⟨-, rfl, rfl⟩ | ⟨rest, -, rfl⟩
      · exact .inr ⟨Option.some.inj (hw.symm.trans hpath), hid⟩
      · exact .inl ⟨before, w, rest, rfl, hw, hid⟩

/-- The first entry of a visit is that of its directory. -/
theorem Taken.exists_directory (h : Taken (start {} naming) vs s)
    {before after : List DirectoryVisit} {v : DirectoryVisit} (hsplit : vs = before ++ v :: after)
    (hpath : v.path? = some path) : ∃ id : EntryId,
      id.slot = (before.flatMap fun v => v.brings naming).length ∧
        (path, id) ∈ s.catalog.registry.directories := by
  have hsize := (h.consistent (start_consistent naming)).size_le
  rw [h.size_store, hsplit, List.flatMap_append, List.flatMap_cons, DirectoryVisit.brings_eq hpath,
    List.length_append, DirectoryVisit.entries, List.cons_append, List.length_cons] at hsize
  have hslot := EntryId.slot_atSlot (Nat.lt_of_lt_of_le (Nat.lt_add_of_pos_right
    (Nat.succ_pos _)) hsize)
  exact ⟨_, hslot, h.mem_directories_iff.mpr ⟨before, v, after, hsplit, hpath, hslot⟩⟩

end Indexing

namespace Node

open Indexing

variable {n m p : Node} {a b : List Nat} {i : Nat} {s : Indexing} {d : List Nat × Node}

/-! ## The number of a place -/

/-- The number of a node: places are numbered in their order. -/
def idOf (n : Node) (a : List Nat) : EntryId :=
  .atSlot (n.places.idxOf a)

/-- The entry of a node: the top is named as the root is. -/
def entryOf? (n : Node) (a : List Nat) : Option NewEntry :=
  (n.node? a).map fun m =>
    ⟨if a = [] then RelPath.rootText else m.name, n.pathText a.dropLast, m.stat⟩

/-- Whether a visit is made at a place. -/
def isStop (n : Node) (a : List Nat) : Bool :=
  a.isEmpty || (n.node? a).any isDirectory

theorem idOf_nil : n.idOf [] = .ofSlot 0 := by
  obtain ⟨name, stat, children⟩ := n
  rw [idOf, places, List.cons_append, List.idxOf_cons_self]
  rfl

theorem Tidy.mem_places (h : n.Tidy) (ha : n.node? a = some m) : a ∈ n.places :=
  h.mem_places_iff.mpr (by rw [ha, Option.isSome_some])

/-- The block of a stop begins with its place. -/
theorem Tidy.idxOf_stop (h : n.Tidy) {before after : List (List Nat × Node)}
    (hsplit : n.stops = before ++ d :: after) :
    n.places.idxOf d.1 = (before.flatMap block).length := by
  have hplaces : n.places = before.flatMap block ++ (block d ++ after.flatMap block) := by
    rw [places_eq, hsplit, List.flatMap_append, List.flatMap_cons]
  have hself : d.1 ∈ block d := List.mem_cons_self
  have hnot : d.1 ∉ before.flatMap block := by
    have hnodup := h.nodup_places
    rw [hplaces] at hnodup
    exact fun hmem => List.disjoint_of_nodup_append hnodup hmem (List.mem_append_left _ hself)
  rw [hplaces, List.idxOf_append_of_notMem hnot, block, List.cons_append,
    List.idxOf_cons_self, Nat.add_zero]

/-! ## What the visits of a tree bring -/

theorem Tidy.entryOf?_eq (h : n.Tidy) (hm : n.node? a = some m) :
    n.entryOf? a = some ((n.path a).entry .relative m.stat) := by
  rw [entryOf?, hm, Option.map_some]
  rcases node?_cases hm with ⟨rfl, -⟩ | ⟨b, i, p, rfl, hp, hchild⟩
  · rfl
  · obtain ⟨t, ht, hpath⟩ := h.path_concat hp hchild
    rw [if_neg (by simp), List.dropLast_concat, h.pathText_eq hp, ← ht, RelPath.entry, hpath,
      RelPath.split?_child]
    rfl

theorem map_filter_files (f : Node → FileRecord) (ns : List Node) :
    (ns.filter fun c => !c.isDirectory).map f =
      (ns.zipIdx.filter fun e => !e.1.isDirectory).map fun e => f e.1 := by
  conv_lhs => rw [← List.zipIdx_map_fst 0 ns, List.filter_map, List.map_map]
  rfl

/-- **A visit brings the nodes of its block.** -/
theorem Tidy.brings_visitOf (h : n.Tidy) (hd : d ∈ n.stops) :
    ((n.visitOf d).brings .relative).map some = (block d).map n.entryOf? := by
  obtain ⟨a, m⟩ := d
  obtain ⟨hm, -⟩ := h.mem_stops_iff.mp hd
  rw [DirectoryVisit.brings_eq (h.path?_visitOf hd), DirectoryVisit.entries, List.map_cons, block,
    List.map_cons, h.entryOf?_eq hm]
  congr 1
  rw [visitOf, visit, map_filter_files, filePositions]
  simp only [List.map_map]
  refine List.map_congr_left fun e he => ?_
  have hchild := List.mem_zipIdx_iff_getElem?.mp (List.mem_of_mem_filter he)
  have hnode : n.node? (a ++ [e.2]) = some e.1 := node?_concat_eq_some_iff.mpr ⟨m, hm, hchild⟩
  simp only [Function.comp_apply, entryOf?, hnode, Option.map_some, List.dropLast_concat,
    h.pathText_eq hm]
  rw [if_neg (by simp)]
  rfl

theorem Tidy.flatMap_brings (h : n.Tidy) {ds : List (List Nat × Node)} (hds : ds ⊆ n.stops) :
    ((ds.map n.visitOf).flatMap fun v => v.brings .relative).map some =
      (ds.flatMap block).map n.entryOf? := by
  rw [List.flatMap_map, List.map_flatMap, List.map_flatMap]
  exact List.flatMap_congr fun d hd => h.brings_visitOf (hds hd)

/-! ## The catalog of a tidy tree -/

section

variable (h : n.Tidy) (htaken : Taken (start {} .relative) n.visits s)

include h htaken

/-- **The entries are the nodes**, in the order of their places. -/
theorem Tidy.stored : s.catalog.store.toList.map (fun e => some e.toNewEntry) =
    n.places.map n.entryOf? := by
  have hstored := congrArg (List.map some) htaken.stored
  rw [visits_eq, List.map_map] at hstored
  rw [places_eq, ← h.flatMap_brings (List.Subset.refl n.stops)]
  exact hstored

theorem Tidy.size_eq : s.catalog.size = n.places.length := by
  have hlength := congrArg List.length (h.stored htaken)
  rw [List.length_map, List.length_map, EntryStore.toList, Array.length_toList] at hlength
  exact hlength

/-- There is a number for every place. -/
theorem Tidy.slot_idOf (ha : n.node? a = some m) : (n.idOf a).slot = n.places.idxOf a := by
  refine EntryId.slot_atSlot (Nat.lt_of_lt_of_le (List.idxOf_lt_length_of_mem (h.mem_places ha)) ?_)
  rw [← h.size_eq htaken]
  exact (htaken.consistent (start_consistent .relative)).size_le

theorem Tidy.idOf_inj (ha : n.node? a = some m) (hb : n.node? b = some p) :
    n.idOf a = n.idOf b ↔ a = b := by
  rw [← EntryId.slot_inj, h.slot_idOf htaken ha, h.slot_idOf htaken hb]
  exact List.idxOf_inj (h.mem_places ha)

/-- **The directories are the stops.** -/
theorem Tidy.mem_directories_iff {path : RelPath} {id : EntryId} :
    (path, id) ∈ s.catalog.registry.directories ↔
      ∃ d ∈ n.stops, path = n.path d.1 ∧ id = n.idOf d.1 := by
  have hvisits : n.visits = n.stops.map n.visitOf := visits_eq n
  -- what comes before a stop takes as many numbers as there are places before it
  have hlength : ∀ {before d after}, n.stops = before ++ d :: after →
      (n.idOf d.1).slot =
        ((before.map n.visitOf).flatMap fun v => v.brings .relative).length := by
    intro before d after hsplit
    have hbefore : before ⊆ n.stops := by
      rw [hsplit]
      exact List.subset_append_left _ _
    have hmap := congrArg List.length (h.flatMap_brings hbefore)
    rw [List.length_map, List.length_map] at hmap
    have hd : d ∈ n.stops := by
      rw [hsplit]
      exact List.mem_append_right _ List.mem_cons_self
    rw [h.slot_idOf htaken (h.mem_stops_iff.mp hd).1, h.idxOf_stop hsplit, hmap]
  rw [htaken.mem_directories_iff, hvisits]
  constructor
  · rintro ⟨before, v, after, hsplit, hpath, hid⟩
    obtain ⟨ds, rest, hstops, rfl, hrest⟩ := List.map_eq_append_iff.mp hsplit
    obtain ⟨d, es, rfl, rfl, -⟩ := List.map_eq_cons_iff.mp hrest
    have hd : d ∈ n.stops := by
      rw [hstops]
      exact List.mem_append_right _ List.mem_cons_self
    refine ⟨d, hd, ?_, EntryId.slot_inj.mp (hid.trans (hlength hstops).symm)⟩
    exact Option.some.inj (hpath.symm.trans (h.path?_visitOf hd))
  · rintro ⟨d, hd, rfl, rfl⟩
    obtain ⟨before, after, hsplit⟩ := List.append_of_mem hd
    refine ⟨before.map n.visitOf, n.visitOf d, after.map n.visitOf, ?_, ?_, ?_⟩
    · rw [hsplit, List.map_append, List.map_cons]
    · exact h.path?_visitOf hd
    · exact hlength hsplit

/-- **The entry of a node.** -/
theorem Tidy.exists_entry (hm : n.node? a = some m) : ∃ e ∈ s.catalog.store.toList,
    e.id = n.idOf a ∧ n.entryOf? a = some e.toNewEntry := by
  have hplace : n.places[n.places.idxOf a]? = some a := List.getElem?_idxOf (h.mem_places hm)
  have hrow := congrArg (·[n.places.idxOf a]?) (h.stored htaken)
  simp only [List.getElem?_map, hplace, Option.map_some] at hrow
  obtain ⟨e, he, hnew⟩ := Option.map_eq_some_iff.mp hrow
  refine ⟨e, List.mem_of_getElem? he, ?_, hnew.symm⟩
  rw [← EntryId.slot_inj, htaken.housed_start.consistent.slot_eq he, h.slot_idOf htaken hm]

/-- The node of an entry. -/
theorem Tidy.exists_node {e : Entry} (he : e ∈ s.catalog.store.toList) :
    ∃ a m, n.node? a = some m ∧ e.id = n.idOf a := by
  obtain ⟨i, hi⟩ := List.mem_iff_getElem?.mp he
  have hrow := congrArg (·[i]?) (h.stored htaken)
  simp only [List.getElem?_map, hi, Option.map_some] at hrow
  obtain ⟨a, ha, -⟩ := Option.map_eq_some_iff.mp hrow.symm
  obtain ⟨m, hm⟩ := Option.isSome_iff_exists.mp (h.mem_places_iff.mp (List.mem_of_getElem? ha))
  refine ⟨a, m, hm, ?_⟩
  obtain ⟨hlt, rfl⟩ := List.getElem?_eq_some_iff.mp ha
  rw [← EntryId.slot_inj, htaken.housed_start.consistent.slot_eq hi, h.slot_idOf htaken hm,
    h.nodup_places.idxOf_getElem]

theorem Tidy.mem_directories (hm : (a, m) ∈ n.stops) :
    (n.path a, n.idOf a) ∈ s.catalog.registry.directories :=
  (h.mem_directories_iff htaken).mpr ⟨(a, m), hm, rfl, rfl⟩

/-! ## Parents and subtrees -/

theorem Tidy.hangs_nil : s.catalog.closure.Hangs (n.idOf []) none := by
  have hroot := h.mem_directories htaken (nil_mem_stops_iff.mpr rfl)
  rcases htaken.housed_start.directory _ _ hroot with ⟨-, hangs⟩ | ⟨parent, name, _, heq, -, -⟩
  · exact hangs
  · exact absurd heq.symm RelPath.child_ne_root

/-- **A node hangs below the one that holds it.** -/
theorem Tidy.hangs_concat (hp : n.node? a = some p) (hchild : p.children[i]? = some m) :
    s.catalog.closure.Hangs (n.idOf (a ++ [i])) (some (n.idOf a)) := by
  have housed := htaken.housed_start
  have hm : n.node? (a ++ [i]) = some m := node?_concat_eq_some_iff.mpr ⟨p, hp, hchild⟩
  have hhome := h.mem_directories htaken (h.mem_stops_iff.mpr ⟨hp, h.holder hp hchild⟩)
  obtain ⟨e, he, hid, hnew⟩ := h.exists_entry htaken hm
  have hdirectory : e.directory = (n.path a).text := by
    rw [entryOf?, hm, Option.map_some, List.dropLast_concat, h.pathText_eq hp] at hnew
    exact (congrArg NewEntry.directory (Option.some.inj hnew)).symm
  rcases housed.entry e he with ⟨hroot, -⟩ | ⟨home, homeId, hin, hspelled, hangs⟩
  · -- the root is another node
    have htop := h.mem_directories htaken (nil_mem_stops_iff.mpr rfl)
    have hsame := Registry.eq_of_mem housed.keys_nodup hroot htop
    rw [hid, h.idOf_inj htaken hm n.node?_nil] at hsame
    simp at hsame
  · obtain rfl : home = n.path a := RelPath.text_inj.mp (hspelled.symm.trans hdirectory)
    rw [hid, Registry.eq_of_mem housed.keys_nodup hin hhome] at hangs
    exact hangs

theorem Tidy.exists_hangs (hm : n.node? a = some m) :
    ∃ parent?, s.catalog.closure.Hangs (n.idOf a) parent? := by
  rcases node?_cases hm with ⟨rfl, -⟩ | ⟨b, i, p, rfl, hp, hchild⟩
  · exact ⟨_, h.hangs_nil htaken⟩
  · exact ⟨_, h.hangs_concat htaken hp hchild⟩

/-- **Distances are those in the tree.** -/
theorem Tidy.depth?_eq_some_iff (hs : s.catalog.closure.Fits) {q : Node}
    (ha : n.node? a = some q) (hb : n.node? b = some m) {k : Nat} :
    s.catalog.closure.depth? (n.idOf a) (n.idOf b) = some k ↔ ∃ r, b = a ++ r ∧ r.length = k := by
  induction b using List.reverseRecOn generalizing m k with
  | nil =>
    rw [(h.hangs_nil htaken).depth?_eq hs]
    simp only [h.idOf_inj htaken hb ha, Option.bind_none, Option.map_none, List.nil_eq_append_iff]
    by_cases hnil : a = []
    · simp [hnil, eq_comm]
    · simp [hnil, Ne.symm hnil]
  | append_singleton b i ih =>
    obtain ⟨p, hp, hchild⟩ := node?_concat_eq_some_iff.mp hb
    rw [(h.hangs_concat htaken hp hchild).depth?_eq hs]
    simp only [h.idOf_inj htaken hb ha, Option.bind_some]
    by_cases hsame : b ++ [i] = a
    · simp [← hsame, eq_comm]
    · rw [if_neg hsame, Option.map_eq_some_iff]
      constructor
      · rintro ⟨j, hj, rfl⟩
        obtain ⟨r, rfl, rfl⟩ := (ih hp).mp hj
        exact ⟨r ++ [i], by rw [List.append_assoc], by rw [List.length_append]; rfl⟩
      · rintro ⟨r, hr, rfl⟩
        rcases List.eq_nil_or_concat' r with rfl | ⟨r, j, rfl⟩
        · exact absurd (hr.trans (List.append_nil a)) hsame
        · rw [← List.append_assoc] at hr
          obtain ⟨rfl, -⟩ := List.append_inj' hr rfl
          exact ⟨r.length, (ih hp).mpr ⟨r, rfl, rfl⟩, by rw [List.length_append]; rfl⟩

theorem Tidy.parent_iff (hs : s.catalog.closure.Fits) (hb : n.node? b = some m) {x : EntryId} :
    s.catalog.closure.depth? x (n.idOf b) = some 1 ↔ ∃ a i, b = a ++ [i] ∧ x = n.idOf a := by
  rcases node?_cases hb with ⟨rfl, -⟩ | ⟨b, i, p, rfl, hp, hchild⟩
  · rw [(h.hangs_nil htaken).depth?_eq_one_iff hs fun p hp => nomatch hp]
    simp
  · rw [(h.hangs_concat htaken hp hchild).depth?_eq_one_iff hs fun q hq => by
      obtain rfl := Option.some.inj hq
      exact h.exists_hangs htaken hp]
    constructor
    · intro hx
      exact ⟨b, i, rfl, (Option.some.inj hx).symm⟩
    · rintro ⟨a, j, heq, rfl⟩
      rw [(List.append_inj' heq rfl).1]

theorem Tidy.mem_subtree_iff (hs : s.catalog.closure.Fits) (ha : n.node? a = some p) {e : Entry}
    {k : Nat} :
    (e, k) ∈ s.catalog.subtree (n.idOf a) ↔ ∃ b, b.length = k ∧ (n.node? (a ++ b)).isSome ∧
      s.catalog.entry? (n.idOf (a ++ b)) = some e := by
  have hconsistent := htaken.housed_start.consistent
  simp only [hconsistent.mem_subtree_iff hs, hconsistent.entry?_eq_some_iff]
  constructor
  · rintro ⟨he, hdepth⟩
    obtain ⟨b, m, hm, hid⟩ := h.exists_node htaken he
    rw [hid, h.depth?_eq_some_iff htaken hs ha hm] at hdepth
    obtain ⟨r, rfl, hlength⟩ := hdepth
    exact ⟨r, hlength, by rw [hm, Option.isSome_some], he, hid⟩
  · rintro ⟨r, hlength, hnode, he, hid⟩
    obtain ⟨m, hm⟩ := Option.isSome_iff_exists.mp hnode
    rw [hid, h.depth?_eq_some_iff htaken hs ha hm]
    exact ⟨he, r, rfl, hlength⟩

/-! ## Paths and counts -/

theorem Tidy.getText?_eq_some_iff {key : String} {id : EntryId} :
    s.catalog.registry.getText? key = some id ↔ ∃ a m, n.node? a = some m ∧
      (a = [] ∨ m.isDirectory) ∧ key = n.pathText a ∧ id = n.idOf a := by
  rw [Registry.getText?_eq_some_iff htaken.housed_start.keys_nodup]
  constructor
  · rintro ⟨path, rfl, hmem⟩
    obtain ⟨⟨a, m⟩, hd, rfl, rfl⟩ := (h.mem_directories_iff htaken).mp hmem
    obtain ⟨hm, hstop⟩ := h.mem_stops_iff.mp hd
    exact ⟨a, m, hm, hstop, (h.pathText_eq hm).symm, rfl⟩
  · rintro ⟨a, m, hm, hstop, rfl, rfl⟩
    exact ⟨n.path a, (h.pathText_eq hm).symm,
      h.mem_directories htaken (h.mem_stops_iff.mpr ⟨hm, hstop⟩)⟩

omit htaken in
theorem Tidy.isStop_iff (hm : n.node? a = some m) : n.isStop a ↔ (a, m) ∈ n.stops := by
  rw [h.mem_stops_iff, isStop, hm, Option.any_some, Bool.or_eq_true, List.isEmpty_iff]
  simp

omit htaken in
/-- There is one stop in a block. -/
theorem Tidy.countP_isStop : n.places.countP n.isStop = n.stops.length := by
  have hblock : ∀ e ∈ n.stops, (block e).countP n.isStop = 1 := by
    rintro ⟨a, m⟩ hd
    obtain ⟨hm, -⟩ := h.mem_stops_iff.mp hd
    have hfiles : ((filePositions m.children).map fun i => a ++ [i]).countP n.isStop = 0 := by
      refine List.countP_eq_zero.mpr fun x hx hstop => ?_
      obtain ⟨i, hi, rfl⟩ := List.mem_map.mp hx
      obtain ⟨f, hf, -⟩ := mem_filePositions_iff.mp hi
      have hnode := node?_concat_eq_some_iff.mpr ⟨m, hm, hf⟩
      exact h.file_not_stop hd hi ((h.isStop_iff hnode).mp hstop)
    rw [block, List.countP_cons_of_pos ((h.isStop_iff hm).mpr hd), hfiles]
  have hblocks : n.stops.map (List.countP n.isStop ∘ block) = n.stops.map fun _ => 1 :=
    List.map_congr_left hblock
  rw [places_eq, List.countP_flatMap, hblocks, List.map_const', List.sum_replicate_nat,
    Nat.mul_one]

theorem Tidy.counts : s.counts.directories = n.places.countP n.isStop ∧
    s.counts.files = n.places.countP fun a => !n.isStop a := by
  have hentered := htaken.entered
  have hdirectories : s.counts.directories = n.places.countP n.isStop := by
    rw [hentered.directories, h.countP_isStop, visits_eq, List.length_map]
  have hsize := h.size_eq htaken
  have hsplit := List.length_eq_countP_add_countP n.isStop (l := n.places)
  have hnot : (fun a => decide ¬ n.isStop a = true) = fun a => !n.isStop a := by
    funext a
    cases n.isStop a <;> rfl
  rw [hentered.size, hdirectories] at hsize
  rw [hnot] at hsplit
  exact ⟨hdirectories, by omega⟩

end

/-! ## The tree in the catalog -/

/-- **What is there after the walk of a tree**, node by node. -/
structure Rebuilt (n : Node) (s : Indexing) : Prop where
  /-- Every node is numbered, and once. -/
  mem_places : ∀ a, a ∈ n.places ↔ (n.node? a).isSome
  nodup_places : n.places.Nodup
  /-- Nodes and entries correspond to each other. -/
  bijOn : Set.BijOn n.idOf {a | (n.node? a).isSome} {id | (s.catalog.entry? id).isSome}
  root : (n.idOf []).number = 1
  /-- A node keeps its name and its record. -/
  entry : ∀ a m, n.node? a = some m → ∃ e, s.catalog.entry? (n.idOf a) = some e ∧
    e.name = (if a = [] then RelPath.rootText else m.name) ∧ e.stat = m.stat
  /-- One step up is the node above. -/
  parent : ∀ b, (n.node? b).isSome → ∀ x, s.catalog.closure.depth? x (n.idOf b) = some 1 ↔
    ∃ a i, b = a ++ [i] ∧ x = n.idOf a
  /-- In the subtree of a node are the nodes below it, at their distances. -/
  subtree : ∀ a, (n.node? a).isSome → ∀ e k, (e, k) ∈ s.catalog.subtree (n.idOf a) ↔
    ∃ b, b.length = k ∧ (n.node? (a ++ b)).isSome ∧ s.catalog.entry? (n.idOf (a ++ b)) = some e
  nodup_subtree : ∀ id, ((s.catalog.subtree id).map fun d => d.1.id).Nodup
  /-- The paths are those of the directories. -/
  registry : ∀ key id, s.catalog.registry.getText? key = some id ↔ ∃ a m, n.node? a = some m ∧
    (a = [] ∨ m.isDirectory) ∧ key = n.pathText a ∧ id = n.idOf a
  directories : s.counts.directories = n.places.countP n.isStop
  files : s.counts.files = n.places.countP fun a => !n.isStop a

theorem Tidy.bijOn (h : n.Tidy) (htaken : Taken (start {} .relative) n.visits s) :
    Set.BijOn n.idOf {a | (n.node? a).isSome} {id | (s.catalog.entry? id).isSome} := by
  have hconsistent := htaken.housed_start.consistent
  refine ⟨fun a ha => ?_, fun a ha b hb hab => ?_, fun id hid => ?_⟩
  · obtain ⟨m, hm⟩ := Option.isSome_iff_exists.mp ha
    obtain ⟨e, he, hid, -⟩ := h.exists_entry htaken hm
    exact Option.isSome_iff_exists.mpr ⟨e, hconsistent.entry?_eq_some_iff.mpr ⟨he, hid⟩⟩
  · obtain ⟨m, hm⟩ := Option.isSome_iff_exists.mp ha
    obtain ⟨p, hp⟩ := Option.isSome_iff_exists.mp hb
    exact (h.idOf_inj htaken hm hp).mp hab
  · obtain ⟨e, he⟩ := Option.isSome_iff_exists.mp hid
    obtain ⟨hmem, rfl⟩ := hconsistent.entry?_eq_some_iff.mp he
    obtain ⟨a, m, hm, ha⟩ := h.exists_node htaken hmem
    exact ⟨a, Option.isSome_iff_exists.mpr ⟨m, hm⟩, ha.symm⟩

theorem Tidy.rebuilt (h : n.Tidy) (htaken : Taken (start {} .relative) n.visits s)
    (hs : s.catalog.closure.Fits) : n.Rebuilt s where
  mem_places := fun _ => h.mem_places_iff
  nodup_places := h.nodup_places
  bijOn := h.bijOn htaken
  root := by rw [idOf_nil]; rfl
  entry := fun a m hm => by
    obtain ⟨e, he, hid, hnew⟩ := h.exists_entry htaken hm
    refine ⟨e, htaken.housed_start.consistent.entry?_eq_some_iff.mpr ⟨he, hid⟩, ?_⟩
    rw [entryOf?, hm, Option.map_some] at hnew
    rw [← Option.some.inj hnew]
    exact ⟨rfl, rfl⟩
  parent := fun b hb x => by
    obtain ⟨m, hm⟩ := Option.isSome_iff_exists.mp hb
    exact h.parent_iff htaken hs hm
  subtree := fun a ha _ _ => by
    obtain ⟨m, hm⟩ := Option.isSome_iff_exists.mp ha
    exact h.mem_subtree_iff htaken hs hm
  nodup_subtree := htaken.housed_start.consistent.nodup_subtree hs
  registry := fun _ _ => h.getText?_eq_some_iff htaken
  directories := (h.counts htaken).1
  files := (h.counts htaken).2

/-- **A walk rebuilds the tree.** -/
theorem takeIn_visits (h : n.Tidy) (hs : (takeIn {} .relative n.visits).2.catalog.closure.Fits) :
    (takeIn {} .relative n.visits).1 = .ok () ∧ n.Rebuilt (takeIn {} .relative n.visits).2 := by
  have hcount : entryCount n.visits ≤ EntryId.capacity := by
    by_contra hlt
    have hexhausted := h.isWalk.takeIn_eq_exhausted .relative (Nat.lt_of_not_le hlt)
    exact not_fits_of_exhausted hexhausted hs
  obtain ⟨s, htaken⟩ := h.isWalk.taken .relative hcount
  rw [takeIn_eq, htaken.exec (start_consistent .relative)] at hs ⊢
  exact ⟨rfl, h.rebuilt htaken hs⟩

/-- A file and a directory may share a name, and the top may have any. -/
theorem takeIn_visits_shared_name :
    let n := mk "any/name" (.plain .directory 0)
      [mk "b" (.plain .directory 0) [mk "f" (.plain .regular 1) []],
        mk "b" (.plain .regular 2) [],
        mk "a" (.plain .directory 0) [mk "b" (.plain .directory 0) [], mk "b" (.plain .fifo 0) []]]
    n.Tidy ∧ (takeIn {} .relative n.visits).2.catalog.closure.Fits ∧
      n.places = [[], [1], [0], [0, 0], [2], [2, 1], [2, 0]] ∧ n.pathText [2, 0] = "a/b" ∧
      (takeIn {} .relative n.visits).1 = .ok () ∧ n.Rebuilt (takeIn {} .relative n.visits).2 := by
  intro n
  have hleaf : ∀ name stat, (mk name stat []).Tidy := fun _ _ =>
    tidy_iff.mpr ⟨.nil, fun _ hc => nomatch hc⟩
  have hfirst : (mk "b" (.plain .directory 0) [mk "f" (.plain .regular 1) []]).Tidy :=
    tidy_iff.mpr ⟨by decide +kernel,
      List.forall_mem_singleton.mpr ⟨by decide +kernel, fun _ => rfl, hleaf _ _⟩⟩
  have hlast : (mk "a" (.plain .directory 0)
      [mk "b" (.plain .directory 0) [], mk "b" (.plain .fifo 0) []]).Tidy :=
    tidy_iff.mpr ⟨by decide +kernel,
      List.forall_mem_cons.mpr ⟨⟨by decide +kernel, fun _ => rfl, hleaf _ _⟩,
        List.forall_mem_singleton.mpr ⟨by decide +kernel, fun _ => rfl, hleaf _ _⟩⟩⟩
  have htidy : n.Tidy :=
    tidy_iff.mpr ⟨by decide +kernel,
      List.forall_mem_cons.mpr ⟨⟨by decide +kernel, by decide +kernel, hfirst⟩,
        List.forall_mem_cons.mpr ⟨⟨by decide +kernel, fun _ => rfl, hleaf _ _⟩,
          List.forall_mem_singleton.mpr ⟨by decide +kernel, by decide +kernel, hlast⟩⟩⟩⟩
  have hfits : (takeIn {} .relative n.visits).2.catalog.closure.Fits := by
    unfold Closure.Fits
    decide +kernel
  exact ⟨htidy, hfits, by decide +kernel, by decide +kernel, takeIn_visits htidy hfits⟩

end Node

end TreeQuery
