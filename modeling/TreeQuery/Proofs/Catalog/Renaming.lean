import Mathlib.Algebra.BigOperators.Group.List.Basic
import Mathlib.Data.List.Nodup
import Mathlib.Data.Set.Function
import TreeQuery.Proofs.Catalog.Addresses

/-!
# The order of visits

The visits of a walk may come in several orders, and then the entries have other numbers. To see
that nothing else is different it is enough to compare entries and directories
(`Catalog.Matches`). The rest follows where closure and texts agree (`Catalog.Housed`): how far an
entry is below a directory can be told from texts, and nothing is below an entry that is no
directory. So distances match, then edges, and the catalogs are the same up to their numbers
(`Matches.renamed`).

An entry arrives with a visit, at some position. Two orders of the same visits have the same
arrivals, and `renumber` leads from the number of an arrival in one order to that in the other.

**`takeIn_perm`**: an empty catalog that takes in visits in any two orders ends up the same, up to
numbers.
-/

namespace TreeQuery

attribute [ext] Edge

/-- The edge between the entries of other numbers. -/
def Edge.rename (f : EntryId → EntryId) (e : Edge) : Edge :=
  ⟨f e.ancestor, f e.descendant, e.depth⟩

/-! ## What can be told from entries and directories -/

namespace Catalog

variable {c c' : Catalog} {naming : Naming} {f : EntryId → EntryId} {a d id : EntryId}
  {path : RelPath} {e : Entry}

theorem isSome_entry?_iff : (c.entry? id).isSome ↔ c.store.contains id := by
  unfold entry? EntryStore.get?
  simp [contains_iff, EntryStore.size]

/-- The edges are the distances. -/
theorem Consistent.mem_edges_iff (h : c.Consistent) (hs : c.closure.Fits) {k : Nat} :
    ⟨a, d, k⟩ ∈ c.closure.edges ↔ c.closure.depth? a d = some k := by
  obtain ⟨links, hgrown⟩ := h.grown
  rw [hgrown.depth?_eq_some_iff hs, Closure.mem_edges_iff hgrown.indexed hs]

/-- Distances are between entries. -/
theorem Consistent.isSome_of_depth? (h : c.Consistent) (hs : c.closure.Fits) {k : Nat}
    (hk : c.closure.depth? a d = some k) : (c.entry? a).isSome ∧ (c.entry? d).isSome := by
  obtain ⟨links, hgrown⟩ := h.grown
  have hkin := (hgrown.depth?_eq_some_iff hs).mp hk
  have hd := Closure.contains_of_mem_ancestors hkin
  have hle : a.slot ≤ d.slot := (hgrown.lineage_decreasing hs d).2 _ hkin
  have ha : c.closure.contains a :=
    Closure.contains_iff.mpr (Nat.lt_of_le_of_lt hle (Closure.contains_iff.mp hd))
  rw [isSome_entry?_iff, isSome_entry?_iff, ← h.contains_iff, ← h.contains_iff]
  exact ⟨ha, hd⟩

theorem Consistent.nodup_edges (h : c.Consistent) (hs : c.closure.Fits) :
    c.closure.edges.Nodup := by
  obtain ⟨links, hgrown⟩ := h.grown
  exact .of_map _ (hgrown.pairs_nodup hs)

theorem Housed.nodup_directories (h : c.Housed naming) : c.registry.directories.Nodup :=
  .of_map Prod.fst h.keys_nodup

/-- Whether an entry is that of a directory. -/
def IsHome (c : Catalog) (id : EntryId) : Prop :=
  ∃ path, (path, id) ∈ c.registry.directories

theorem Housed.depth?_directory_eq_none (h : c.Housed naming) (hs : c.closure.Fits)
    (ha : ¬ c.IsHome a) (hd : (path, d) ∈ c.registry.directories) :
    c.closure.depth? a d = none := by
  have hne : ∀ {path d}, (path, d) ∈ c.registry.directories → d ≠ a := by
    rintro path d hd rfl
    exact ha ⟨path, hd⟩
  induction path using RelPath.induction_child generalizing d with
  | root =>
    rcases h.directory _ _ hd with ⟨-, hangs⟩ | ⟨parent, name, _, hroot, -, -⟩
    · rw [hangs.depth?_eq hs, if_neg (hne hd)]
      rfl
    · exact absurd hroot.symm RelPath.child_ne_root
  | child path name ih =>
    rcases h.directory _ _ hd with ⟨hroot, -⟩ | ⟨parent, _, parentId, heq, hin, hangs⟩
    · exact absurd hroot RelPath.child_ne_root
    · obtain ⟨rfl, -⟩ := RelPath.child_inj.mp heq
      rw [hangs.depth?_eq hs, if_neg (hne hd), Option.bind_some, ih hin]
      rfl

/-- **Nothing is below an entry that is no directory.** -/
theorem Housed.depth?_of_not_isHome (h : c.Housed naming) (hs : c.closure.Fits)
    (ha : ¬ c.IsHome a) (he : e ∈ c.store.toList) :
    c.closure.depth? a e.id = if e.id = a then some 0 else none := by
  rcases h.entry e he with ⟨hroot, -⟩ | ⟨home, homeId, hin, -, hangs⟩
  · have hne : e.id ≠ a := by
      rintro rfl
      exact ha ⟨_, hroot⟩
    rw [h.depth?_directory_eq_none hs ha hroot, if_neg hne]
  · rw [hangs.depth?_eq hs, Option.bind_some, h.depth?_directory_eq_none hs ha hin]
    rfl

/-! ## Matching catalogs -/

/-- **Entries and directories match**, by their numbers. -/
structure Matches (f : EntryId → EntryId) (c c' : Catalog) : Prop where
  bijOn : Set.BijOn f {id | (c.entry? id).isSome} {id | (c'.entry? id).isSome}
  entry : ∀ id e, c.entry? id = some e → c'.entry? (f id) = some ⟨e.toNewEntry, f id⟩
  directory : ∀ path id, (c.entry? id).isSome →
    ((path, f id) ∈ c'.registry.directories ↔ (path, id) ∈ c.registry.directories)

theorem Matches.isHome_iff (hm : c.Matches f c') (ha : (c.entry? a).isSome) :
    c'.IsHome (f a) ↔ c.IsHome a :=
  exists_congr fun path => hm.directory path a ha

/-- Every directory on the other side is the match of one. -/
theorem Matches.mem_directories_iff (hm : c.Matches f c') (h : c.Consistent)
    (h' : c'.Consistent) : (path, id) ∈ c'.registry.directories ↔
      ∃ d, (path, d) ∈ c.registry.directories ∧ f d = id := by
  constructor
  · intro hid
    obtain ⟨d, hd, rfl⟩ := hm.bijOn.surjOn (isSome_entry?_iff.mpr (h'.registered _ hid))
    exact ⟨d, (hm.directory path d hd).mp hid, rfl⟩
  · rintro ⟨d, hd, rfl⟩
    exact (hm.directory path d (isSome_entry?_iff.mpr (h.registered _ hd))).mpr hd

section

variable (hm : c.Matches f c') (h : c.Housed naming) (h' : c'.Housed naming)

include hm h h'

theorem Matches.directories_perm :
    c'.registry.directories.Perm (c.registry.directories.map fun d => (d.1, f d.2)) := by
  have hnodup : (c.registry.directories.map fun d => (d.1, f d.2)).Nodup := by
    refine .of_map Prod.fst ?_
    rw [List.map_map]
    exact h.keys_nodup
  refine (List.perm_ext_iff_of_nodup h'.nodup_directories hnodup).mpr fun ⟨path, id⟩ => ?_
  rw [hm.mem_directories_iff h.consistent h'.consistent, List.mem_map]
  simp only [Prod.exists, Prod.mk.injEq]
  constructor
  · rintro ⟨d, hd, hid⟩
    exact ⟨path, d, hd, rfl, hid⟩
  · rintro ⟨_, d, hd, rfl, hid⟩
    exact ⟨d, hd, hid⟩

theorem Matches.getText?_eq (key : String) :
    c'.registry.getText? key = (c.registry.getText? key).map f := by
  ext id
  rw [Registry.getText?_eq_some_iff h'.keys_nodup, Option.map_eq_some_iff]
  simp only [Registry.getText?_eq_some_iff h.keys_nodup,
    hm.mem_directories_iff h.consistent h'.consistent]
  constructor
  · rintro ⟨path, hkey, d, hd, hid⟩
    exact ⟨d, ⟨path, hkey, hd⟩, hid⟩
  · rintro ⟨d, ⟨path, hkey, hd⟩, hid⟩
    exact ⟨path, hkey, d, hd, hid⟩

variable (hs : c.closure.Fits) (hs' : c'.closure.Fits)

include hs hs'

/-- **Distances match.** -/
theorem Matches.depth?_eq (ha : (c.entry? a).isSome) (hd : (c.entry? d).isSome) :
    c'.closure.depth? (f a) (f d) = c.closure.depth? a d := by
  obtain ⟨e, he⟩ := Option.isSome_iff_exists.mp hd
  obtain ⟨hmem, rfl⟩ := h.consistent.entry?_eq_some_iff.mp he
  obtain ⟨hmem', -⟩ := h'.consistent.entry?_eq_some_iff.mp (hm.entry _ e he)
  have hsame : f e.id = f a ↔ e.id = a := hm.bijOn.injOn.eq_iff hd ha
  by_cases hhome : c.IsHome a
  · obtain ⟨path, hpath⟩ := hhome
    obtain ⟨home, hhome, hdepth⟩ := h.depth?_entry hs hpath hmem
    obtain ⟨home', hhome', hdepth'⟩ :=
      h'.depth?_entry hs' ((hm.directory path a ha).mpr hpath) hmem'
    -- the entry is stored with the same text, so it is below the same directory
    obtain rfl : home' = home := Naming.spell_inj.mp (hhome'.symm.trans hhome)
    ext k
    simp only [hdepth, hdepth', hsame]
  · have hhome' : ¬ c'.IsHome (f a) := mt (hm.isHome_iff ha).mp hhome
    have hdepth' := h'.depth?_of_not_isHome hs' hhome' hmem'
    simp only [hdepth', h.depth?_of_not_isHome hs hhome hmem, hsame]

/-- **Edges match.** -/
theorem Matches.edges_perm : c'.closure.edges.Perm (c.closure.edges.map (Edge.rename f)) := by
  have hends : ∀ {x : Edge}, x ∈ c.closure.edges →
      (c.entry? x.ancestor).isSome ∧ (c.entry? x.descendant).isSome := fun hx =>
    h.consistent.isSome_of_depth? hs ((h.consistent.mem_edges_iff hs).mp hx)
  have hnodup : (c.closure.edges.map (Edge.rename f)).Nodup := by
    refine (h.consistent.nodup_edges hs).map_on fun x hx y hy heq => ?_
    obtain ⟨ha, hd, hk⟩ := Edge.mk.inj heq
    exact Edge.ext (hm.bijOn.injOn (hends hx).1 (hends hy).1 ha)
      (hm.bijOn.injOn (hends hx).2 (hends hy).2 hd) hk
  refine (List.perm_ext_iff_of_nodup (h'.consistent.nodup_edges hs') hnodup).mpr
    fun ⟨a', d', k⟩ => ?_
  rw [h'.consistent.mem_edges_iff hs', List.mem_map]
  constructor
  · intro hk
    obtain ⟨ha', hd'⟩ := h'.consistent.isSome_of_depth? hs' hk
    obtain ⟨a, ha, rfl⟩ := hm.bijOn.surjOn ha'
    obtain ⟨d, hd, rfl⟩ := hm.bijOn.surjOn hd'
    rw [hm.depth?_eq h h' hs hs' ha hd] at hk
    exact ⟨⟨a, d, k⟩, (h.consistent.mem_edges_iff hs).mpr hk, rfl⟩
  · rintro ⟨⟨a, d, j⟩, hx, heq⟩
    obtain ⟨rfl, rfl, rfl⟩ := Edge.mk.inj heq
    obtain ⟨ha, hd⟩ := hends hx
    rw [hm.depth?_eq h h' hs hs' ha hd]
    exact (h.consistent.mem_edges_iff hs).mp hx

end

/-- **The same catalog with other numbers.** -/
structure Renamed (f : EntryId → EntryId) (c c' : Catalog) : Prop where
  /-- The numbers of the entries correspond to each other. -/
  bijOn : Set.BijOn f {id | (c.entry? id).isSome} {id | (c'.entry? id).isSome}
  /-- An entry keeps its name, its directory and its record. -/
  entry : ∀ id e, c.entry? id = some e → c'.entry? (f id) = some ⟨e.toNewEntry, f id⟩
  /-- The edges are between the same entries, and as long. -/
  edges : c'.closure.edges.Perm (c.closure.edges.map (Edge.rename f))
  depth? : ∀ a d, (c.entry? a).isSome → (c.entry? d).isSome →
    c'.closure.depth? (f a) (f d) = c.closure.depth? a d
  /-- The same directories are registered, with the same entries. -/
  directories : c'.registry.directories.Perm (c.registry.directories.map fun d => (d.1, f d.2))
  getText? : ∀ key, c'.registry.getText? key = (c.registry.getText? key).map f
  absoluteRoot? : c'.registry.absoluteRoot? = c.registry.absoluteRoot?

end Catalog

/-! ## Arrivals -/

namespace Indexing

variable {naming : Naming} {s s' : Indexing} {vs ws : List DirectoryVisit} {v : DirectoryVisit}
  {path : RelPath} {id : EntryId} {e : Entry} {a b : DirectoryVisit × NewEntry × Nat}

/-- The entries that visits bring, each with its visit and its position there. -/
def arrivals (naming : Naming) (vs : List DirectoryVisit) :
    List (DirectoryVisit × NewEntry × Nat) :=
  vs.flatMap fun v => (v.brings naming).zipIdx.map fun e => (v, e)

/-- The number of an arrival. -/
def numberOf (naming : Naming) (vs : List DirectoryVisit) (a : DirectoryVisit × NewEntry × Nat) :
    EntryId :=
  .atSlot ((arrivals naming vs).idxOf a)

/-- The number that the arrival of a number has in another order. -/
def renumber (naming : Naming) (vs ws : List DirectoryVisit) (id : EntryId) : EntryId :=
  ((arrivals naming vs)[id.slot]?).elim id (numberOf naming ws)

/-- The arrival of a directory is the first of its visit. -/
def arrivalOf (naming : Naming) (path : RelPath) (v : DirectoryVisit) :
    DirectoryVisit × NewEntry × Nat :=
  (v, path.entry naming v.stat, 0)

theorem map_entry_arrivals (naming : Naming) (vs : List DirectoryVisit) :
    (arrivals naming vs).map (fun a => a.2.1) = vs.flatMap fun v => v.brings naming := by
  rw [arrivals, List.map_flatMap]
  refine List.flatMap_congr fun v _ => ?_
  rw [List.map_map]
  exact List.zipIdx_map_fst 0 _

theorem arrivals_perm (naming : Naming) (h : vs.Perm ws) :
    (arrivals naming vs).Perm (arrivals naming ws) :=
  h.flatMap_right _

theorem nodup_arrivals (naming : Naming) (h : vs.Nodup) : (arrivals naming vs).Nodup := by
  refine List.nodup_flatMap.mpr ⟨fun v _ => ?_, h.imp fun hne a hv hw => ?_⟩
  · refine .of_map (fun a => a.2.2) ?_
    rw [List.map_map]
    exact List.zipIdx_map_snd 0 (v.brings naming) ▸ List.nodup_range'
  · obtain ⟨_, -, rfl⟩ := List.mem_map.mp hv
    obtain ⟨_, -, heq⟩ := List.mem_map.mp hw
    exact hne (congrArg Prod.fst heq).symm

/-- There is a number for every arrival of a walk. -/
theorem Taken.slot_numberOf (h : Taken (start {} naming) vs s) (ha : a ∈ arrivals naming vs) :
    (numberOf naming vs a).slot = (arrivals naming vs).idxOf a := by
  have hlength := congrArg List.length (map_entry_arrivals naming vs)
  rw [List.length_map, ← h.size_store] at hlength
  refine EntryId.slot_atSlot (Nat.lt_of_lt_of_le (List.idxOf_lt_length_of_mem ha) ?_)
  rw [hlength]
  exact (h.consistent (start_consistent naming)).size_le

theorem Taken.numberOf_inj (h : Taken (start {} naming) vs s) (ha : a ∈ arrivals naming vs)
    (hb : b ∈ arrivals naming vs) : numberOf naming vs a = numberOf naming vs b ↔ a = b := by
  rw [← EntryId.slot_inj, h.slot_numberOf ha, h.slot_numberOf hb]
  exact List.idxOf_inj ha

theorem Taken.renumber_numberOf (h : Taken (start {} naming) vs s)
    (ha : a ∈ arrivals naming vs) :
    renumber naming vs ws (numberOf naming vs a) = numberOf naming ws a := by
  rw [renumber, h.slot_numberOf ha, List.getElem?_idxOf ha, Option.elim_some]

/-- The visits of a walk are different. -/
theorem Taken.nodup (h : Taken (start {} naming) vs s) : vs.Nodup := by
  refine .of_map DirectoryVisit.path? ?_
  rw [h.entered.paths]
  exact h.housed_start.keys_nodup.map (Option.some_injective _)

/-- **The entries of a walk are its arrivals.** -/
theorem Taken.entry?_eq_some_iff (h : Taken (start {} naming) vs s) :
    s.catalog.entry? id = some e ↔
      ∃ a ∈ arrivals naming vs, id = numberOf naming vs a ∧ e = ⟨a.2.1, id⟩ := by
  have hconsistent := h.housed_start.consistent
  have hstored := h.stored.trans (map_entry_arrivals naming vs).symm
  have hrow : ∀ i : Nat, (s.catalog.store.toList[i]?).map Entry.toNewEntry =
      ((arrivals naming vs)[i]?).map fun a => a.2.1 := by
    intro i
    rw [← List.getElem?_map, hstored, List.getElem?_map]
  rw [hconsistent.entry?_eq_some_iff]
  constructor
  · rintro ⟨he, rfl⟩
    obtain ⟨i, hi⟩ := List.mem_iff_getElem?.mp he
    have hi' := hrow i
    rw [hi, Option.map_some] at hi'
    obtain ⟨a, ha, hnew⟩ := Option.map_eq_some_iff.mp hi'.symm
    refine ⟨a, List.mem_of_getElem? ha, ?_, ?_⟩
    · rw [← EntryId.slot_inj, h.slot_numberOf (List.mem_of_getElem? ha), hconsistent.slot_eq hi]
      obtain ⟨hlt, rfl⟩ := List.getElem?_eq_some_iff.mp ha
      exact ((nodup_arrivals naming h.nodup).idxOf_getElem i hlt).symm
    · rw [hnew]
  · rintro ⟨a, ha, rfl, rfl⟩
    have hi := hrow ((arrivals naming vs).idxOf a)
    rw [List.getElem?_idxOf ha, Option.map_some] at hi
    obtain ⟨⟨new, id⟩, he, rfl⟩ := Option.map_eq_some_iff.mp hi
    obtain rfl : id = numberOf naming vs a :=
      EntryId.slot_inj.mp ((hconsistent.slot_eq he).trans (h.slot_numberOf ha).symm)
    exact ⟨List.mem_of_getElem? he, rfl⟩

theorem Taken.isSome_entry?_iff (h : Taken (start {} naming) vs s) :
    (s.catalog.entry? id).isSome ↔ ∃ a ∈ arrivals naming vs, id = numberOf naming vs a := by
  rw [Option.isSome_iff_exists]
  constructor
  · rintro ⟨e, he⟩
    obtain ⟨a, ha, hid, -⟩ := h.entry?_eq_some_iff.mp he
    exact ⟨a, ha, hid⟩
  · rintro ⟨a, ha, hid⟩
    exact ⟨_, h.entry?_eq_some_iff.mpr ⟨a, ha, hid, rfl⟩⟩

theorem arrivalOf_mem (hv : v ∈ vs) (hpath : v.path? = some path) :
    arrivalOf naming path v ∈ arrivals naming vs := by
  refine List.mem_flatMap.mpr ⟨v, hv, ?_⟩
  rw [DirectoryVisit.brings_eq hpath, DirectoryVisit.entries, List.zipIdx_cons, List.map_cons]
  exact List.mem_cons_self

/-- As many entries come before a directory as earlier visits bring. -/
theorem idxOf_arrivalOf {before after : List DirectoryVisit} (hpath : v.path? = some path)
    (hnodup : (before ++ v :: after).Nodup) :
    (arrivals naming (before ++ v :: after)).idxOf (arrivalOf naming path v) =
      (before.flatMap fun v => v.brings naming).length := by
  have hnot : arrivalOf naming path v ∉ arrivals naming before := by
    intro hmem
    obtain ⟨w, hw, hin⟩ := List.mem_flatMap.mp hmem
    obtain ⟨_, -, heq⟩ := List.mem_map.mp hin
    obtain rfl : w = v := congrArg Prod.fst heq
    exact List.disjoint_of_nodup_append hnodup hw List.mem_cons_self
  have hself : (arrivals naming (v :: after)).idxOf (arrivalOf naming path v) = 0 := by
    rw [arrivals, List.flatMap_cons, DirectoryVisit.brings_eq hpath, DirectoryVisit.entries,
      List.zipIdx_cons, List.map_cons, List.cons_append]
    exact List.idxOf_cons_self
  have hlength := congrArg List.length (map_entry_arrivals naming before)
  rw [List.length_map] at hlength
  have happend : arrivals naming (before ++ v :: after) =
      arrivals naming before ++ arrivals naming (v :: after) := List.flatMap_append
  rw [happend, List.idxOf_append_of_notMem hnot, hself, hlength, Nat.add_zero]

/-- **The directories of a walk** have the numbers of their arrivals. -/
theorem Taken.mem_directories_iff_numberOf (h : Taken (start {} naming) vs s) :
    (path, id) ∈ s.catalog.registry.directories ↔ ∃ v ∈ vs, v.path? = some path ∧
      id = numberOf naming vs (arrivalOf naming path v) := by
  rw [h.mem_directories_iff]
  constructor
  · rintro ⟨before, v, after, rfl, hpath, hid⟩
    have hv : v ∈ before ++ v :: after := List.mem_append_right _ List.mem_cons_self
    refine ⟨v, hv, hpath, ?_⟩
    rw [← EntryId.slot_inj, h.slot_numberOf (arrivalOf_mem hv hpath), hid,
      idxOf_arrivalOf hpath h.nodup]
  · rintro ⟨v, hv, hpath, rfl⟩
    have hslot := h.slot_numberOf (arrivalOf_mem hv hpath)
    obtain ⟨before, after, rfl⟩ := List.append_of_mem hv
    exact ⟨before, v, after, rfl, hpath, hslot.trans (idxOf_arrivalOf hpath h.nodup)⟩

/-! ## Two orders -/

section

variable (h : Taken (start {} naming) vs s) (h' : Taken (start {} naming) ws s')
  (hperm : vs.Perm ws)

include h h' hperm

theorem Taken.bijOn_renumber : Set.BijOn (renumber naming vs ws)
    {id | (s.catalog.entry? id).isSome} {id | (s'.catalog.entry? id).isSome} := by
  have harrivals := arrivals_perm naming hperm
  refine ⟨fun id hid => ?_, fun id hid id' hid' heq => ?_, fun id hid => ?_⟩
  · obtain ⟨a, ha, rfl⟩ := h.isSome_entry?_iff.mp hid
    exact h'.isSome_entry?_iff.mpr ⟨a, harrivals.mem_iff.mp ha, h.renumber_numberOf ha⟩
  · obtain ⟨a, ha, rfl⟩ := h.isSome_entry?_iff.mp hid
    obtain ⟨b, hb, rfl⟩ := h.isSome_entry?_iff.mp hid'
    rw [h.renumber_numberOf ha, h.renumber_numberOf hb,
      h'.numberOf_inj (harrivals.mem_iff.mp ha) (harrivals.mem_iff.mp hb)] at heq
    rw [heq]
  · obtain ⟨a, ha, rfl⟩ := h'.isSome_entry?_iff.mp hid
    have ha := harrivals.mem_iff.mpr ha
    exact ⟨_, h.isSome_entry?_iff.mpr ⟨a, ha, rfl⟩, h.renumber_numberOf ha⟩

/-- **Two orders of the same visits bring the same.** -/
theorem Taken.matches_renumber : s.catalog.Matches (renumber naming vs ws) s'.catalog where
  bijOn := h.bijOn_renumber h' hperm
  entry := fun id e he => by
    obtain ⟨a, ha, rfl, rfl⟩ := h.entry?_eq_some_iff.mp he
    exact h'.entry?_eq_some_iff.mpr
      ⟨a, (arrivals_perm naming hperm).mem_iff.mp ha, h.renumber_numberOf ha, rfl⟩
  directory := fun path id hid => by
    obtain ⟨a, ha, rfl⟩ := h.isSome_entry?_iff.mp hid
    have ha' := (arrivals_perm naming hperm).mem_iff.mp ha
    rw [h.mem_directories_iff_numberOf, h'.mem_directories_iff_numberOf, h.renumber_numberOf ha]
    refine exists_congr fun v => ⟨fun ⟨hv, hpath, heq⟩ => ?_, fun ⟨hv, hpath, heq⟩ => ?_⟩
    · rw [h'.numberOf_inj ha' (arrivalOf_mem hv hpath)] at heq
      exact ⟨hperm.mem_iff.mpr hv, hpath, congrArg _ heq⟩
    · rw [h.numberOf_inj ha (arrivalOf_mem hv hpath)] at heq
      exact ⟨hperm.mem_iff.mp hv, hpath, congrArg _ heq⟩

theorem Taken.renamed (hs : s.catalog.closure.Fits) (hs' : s'.catalog.closure.Fits) :
    s.catalog.Renamed (renumber naming vs ws) s'.catalog := by
  have hm := h.matches_renumber h' hperm
  have housed := h.housed_start
  have housed' := h'.housed_start
  exact {
    bijOn := hm.bijOn
    entry := hm.entry
    edges := hm.edges_perm housed housed' hs hs'
    depth? := fun _ _ => hm.depth?_eq housed housed' hs hs'
    directories := hm.directories_perm housed housed'
    getText? := hm.getText?_eq housed housed'
    absoluteRoot? := h'.absoluteRoot?_eq.trans h.absoluteRoot?_eq.symm }

theorem Taken.counts_eq : s.counts = s'.counts := by
  have hdirectories : s.counts.directories = s'.counts.directories := by
    rw [h.entered.directories, h'.entered.directories, hperm.length_eq]
  have hfiles : s.counts.files = s'.counts.files := by
    rw [h.entered.files, h'.entered.files]
    exact (hperm.map _).sum_eq
  cases hc : s.counts
  cases hc' : s'.counts
  simp only [hc, hc'] at hdirectories hfiles
  rw [hdirectories, hfiles]

end

/-- **The order of visits only matters for the numbers.** -/
theorem takeIn_perm (hperm : vs.Perm ws) (hv : (takeIn {} naming vs).1 = .ok ())
    (hw : (takeIn {} naming ws).1 = .ok ())
    (hs : (takeIn {} naming vs).2.catalog.closure.Fits)
    (hs' : (takeIn {} naming ws).2.catalog.closure.Fits) :
    (∃ f, (takeIn {} naming vs).2.catalog.Renamed f (takeIn {} naming ws).2.catalog) ∧
      (takeIn {} naming vs).2.counts = (takeIn {} naming ws).2.counts := by
  have h := taken_of_takeIn hv
  have h' := taken_of_takeIn hw
  exact ⟨⟨_, h.renamed h' hperm hs hs'⟩, h.counts_eq h' hperm⟩

/-- A directory with its files may come after what stands beside it, or before. -/
theorem takeIn_perm_siblings :
    let root : DirectoryVisit := { directory := ".", stat := .plain .directory 0 }
    let a : DirectoryVisit := { directory := "./a", stat := .plain .directory 0 }
    let b : DirectoryVisit :=
      { directory := "a/b", stat := .plain .directory 0, files := [⟨"f", .plain .regular 1⟩] }
    let c : DirectoryVisit :=
      { directory := "c//", stat := .plain .directory 0,
        files := [⟨"f", .plain .regular 2⟩, ⟨"g", .plain .fifo 0⟩] }
    let s := (takeIn {} (.absolute "/data") [root, a, b, c]).2
    let s' := (takeIn {} (.absolute "/data") [root, c, a, b]).2
    s.catalog.store.toList.map (fun e => e.fullPath) =
        ["/data", "/data/a", "/data/a/b", "/data/a/b/f", "/data/c", "/data/c/f", "/data/c/g"] ∧
      s'.catalog.store.toList.map (fun e => e.fullPath) =
        ["/data", "/data/c", "/data/c/f", "/data/c/g", "/data/a", "/data/a/b", "/data/a/b/f"] ∧
      [root, a, b, c].Perm [root, c, a, b] ∧
      (takeIn {} (.absolute "/data") [root, a, b, c]).1 = .ok () ∧
      (takeIn {} (.absolute "/data") [root, c, a, b]).1 = .ok () ∧
      s.catalog.closure.Fits ∧ s'.catalog.closure.Fits ∧
      (∃ f, s.catalog.Renamed f s'.catalog) ∧ s.counts = s'.counts := by
  intro root a b c s s'
  have hperm : [root, a, b, c].Perm [root, c, a, b] := by decide +kernel
  have hv : (takeIn {} (.absolute "/data") [root, a, b, c]).1 = .ok () := by decide +kernel
  have hw : (takeIn {} (.absolute "/data") [root, c, a, b]).1 = .ok () := by decide +kernel
  have hs : s.catalog.closure.Fits := by
    unfold Closure.Fits
    decide +kernel
  have hs' : s'.catalog.closure.Fits := by
    unfold Closure.Fits
    decide +kernel
  exact ⟨by decide +kernel, by decide +kernel, hperm, hv, hw, hs, hs',
    takeIn_perm hperm hv hw hs hs'⟩

end Indexing

end TreeQuery
