import Mathlib.Data.List.Nodup
import TreeQuery.Proofs.Catalog.Walks

/-!
# Subtrees and paths

Who lies below whom is kept twice in a catalog: by numbers in the closure, and by the texts of the
directories in the registry and in the entries. `Catalog.Housed` ties the two. A directory hangs
below the entry of the directory that holds it, and any other entry below that of the directory
whose path it is stored with. Taking in a visit preserves this (`Housed.enter`), so it holds after
every walk.

From there on distances are lengths of paths (`Housed.depth?_directory`), and
**`mem_subtree_visitEach`** says of texts what is in the subtree of a directory, and how deep.
-/

namespace TreeQuery

/-! ## Entries at and below an entry -/

namespace Catalog

variable {c : Catalog} {naming : Naming} {path : RelPath} {e : Entry} {id r : EntryId}
  {v : DirectoryVisit} {file : FileRecord} {files : List FileRecord}

/-- An entry has the number of its position. -/
theorem Consistent.slot_eq (h : c.Consistent) {i : Nat} (hi : c.store.toList[i]? = some e) :
    e.id.slot = i := by
  have hnumber := congrArg (·[i]?) h.numbered
  have hlt : i < c.store.size := by
    have := (List.getElem?_eq_some_iff.mp hi).1
    simpa [EntryStore.toList, EntryStore.size] using this
  simp only [List.getElem?_map, hi, List.getElem?_range hlt, Option.map_some,
    Option.some.injEq] at hnumber
  exact hnumber

/-- The entry of a number is the one that has it. -/
theorem Consistent.entry?_eq_some_iff (h : c.Consistent) :
    c.entry? id = some e ↔ e ∈ c.store.toList ∧ e.id = id := by
  have hget : c.entry? id = c.store.toList[id.slot]? := by
    unfold entry? EntryStore.get? EntryStore.toList
    exact Array.getElem?_toList.symm
  rw [hget]
  constructor
  · intro hi
    refine ⟨List.mem_of_getElem? hi, ?_⟩
    exact EntryId.slot_inj.mp (h.slot_eq hi)
  · rintro ⟨he, rfl⟩
    obtain ⟨i, hi⟩ := List.mem_iff_getElem?.mp he
    rw [h.slot_eq hi, hi]

/-- **The subtree of an entry**, by distance. -/
theorem Consistent.mem_subtree_iff (h : c.Consistent) (hs : c.closure.Fits) {k : Nat} :
    (e, k) ∈ c.subtree r ↔ e ∈ c.store.toList ∧ c.closure.depth? r e.id = some k := by
  obtain ⟨links, hgrown⟩ := h.grown
  rw [subtree, List.mem_filterMap]
  constructor
  · rintro ⟨kin, hkin, hentry⟩
    obtain ⟨e', he', heq⟩ := Option.map_eq_some_iff.mp hentry
    obtain ⟨rfl, rfl⟩ := Prod.mk.inj heq
    obtain ⟨hmem, hid⟩ := h.entry?_eq_some_iff.mp he'
    exact ⟨hmem, hid ▸ (hgrown.mem_subtree_iff hs).mp hkin⟩
  · rintro ⟨hmem, hdepth⟩
    refine ⟨⟨e.id, k⟩, (hgrown.mem_subtree_iff hs).mpr hdepth, ?_⟩
    rw [h.entry?_eq_some_iff.mpr ⟨hmem, rfl⟩, Option.map_some]

/-- An entry is in a subtree once. -/
theorem Consistent.nodup_subtree (h : c.Consistent) (hs : c.closure.Fits) (r : EntryId) :
    ((c.subtree r).map fun d => d.1.id).Nodup := by
  obtain ⟨links, hgrown⟩ := h.grown
  refine List.pairwise_map.mpr (List.Pairwise.filterMap _ ?_ (hgrown.subtree_increasing hs r))
  intro x y hlt dx hx dy hy heq
  obtain ⟨ex, hex, rfl⟩ := Option.map_eq_some_iff.mp hx
  obtain ⟨ey, hey, rfl⟩ := Option.map_eq_some_iff.mp hy
  rw [← (h.entry?_eq_some_iff.mp hex).2, ← (h.entry?_eq_some_iff.mp hey).2] at hlt
  exact hlt.ne (congrArg EntryId.slot heq)

/-! ## Where entries hang -/

/-- A directory hangs below the directory that holds it. -/
def HousesDirectory (c : Catalog) (path : RelPath) (id : EntryId) : Prop :=
  path = .root ∧ c.closure.Hangs id none ∨
    ∃ parent name parentId, path = RelPath.child parent name ∧
      (parent, parentId) ∈ c.registry.directories ∧ c.closure.Hangs id (some parentId)

/-- An entry hangs below the directory that it is stored with. -/
def HousesEntry (naming : Naming) (c : Catalog) (e : Entry) : Prop :=
  (.root, e.id) ∈ c.registry.directories ∧ e.directory = naming.spell .root ∨
    ∃ home homeId, (home, homeId) ∈ c.registry.directories ∧
      e.directory = naming.spell home ∧ c.closure.Hangs e.id (some homeId)

/-- **A catalog whose closure and texts agree.** -/
structure Housed (naming : Naming) (c : Catalog) : Prop where
  consistent : c.Consistent
  keys_nodup : c.registry.keys.Nodup
  ids_nodup : (c.registry.directories.map Prod.snd).Nodup
  directory : ∀ path id, (path, id) ∈ c.registry.directories → c.HousesDirectory path id
  entry : ∀ e ∈ c.store.toList, c.HousesEntry naming e

theorem housed_empty {r : Registry} (h : r.directories = []) :
    Housed naming { registry := r } where
  consistent := empty_consistent r h
  keys_nodup := by simp [Registry.keys, h]
  ids_nodup := by simp [h]
  directory := by simp [h]
  entry := by simp [EntryStore.toList]

/-- A catalog of which all that is registered, and all that hangs, is in another one. -/
structure Extends (c c' : Catalog) : Prop where
  directories : c.registry.directories ⊆ c'.registry.directories
  hangs : ∀ d parent?, c.closure.Hangs d parent? → c'.closure.Hangs d parent?

theorem HousesDirectory.mono {c' : Catalog} (h : c.HousesDirectory path id) (hc : c.Extends c') :
    c'.HousesDirectory path id := by
  rcases h with ⟨hroot, hangs⟩ | ⟨parent, name, parentId, hpath, hmem, hangs⟩
  · exact .inl ⟨hroot, hc.hangs _ _ hangs⟩
  · exact .inr ⟨parent, name, parentId, hpath, hc.directories hmem, hc.hangs _ _ hangs⟩

theorem HousesEntry.mono {c' : Catalog} (h : c.HousesEntry naming e) (hc : c.Extends c') :
    c'.HousesEntry naming e := by
  rcases h with ⟨hroot, hdirectory⟩ | ⟨home, homeId, hmem, hdirectory, hangs⟩
  · exact .inl ⟨hc.directories hroot, hdirectory⟩
  · exact .inr ⟨home, homeId, hc.directories hmem, hdirectory, hc.hangs _ _ hangs⟩

theorem mem_add {new : NewEntry} {parent? : Option EntryId} (hid : c.store.nextId? = some id) :
    e ∈ (c.add new parent?).store.toList ↔ e ∈ c.store.toList ∨ e = ⟨new, id⟩ := by
  rw [add_of_some hid, EntryStore.toList_append, List.mem_append, List.mem_singleton]

/-- What hangs somewhere still does when an entry is added, and so does the new entry. -/
theorem Consistent.hangs_add (h : c.Consistent) (new : NewEntry) {parent? : Option EntryId}
    (hparent : c.StoresParent parent?) (hid : c.store.nextId? = some id) :
    (∀ d p?, c.closure.Hangs d p? → (c.add new parent?).closure.Hangs d p?) ∧
      (c.add new parent?).closure.Hangs id parent? := by
  have hclosure := h.insert_closure hparent hid
  rw [add_of_some hid]
  exact ⟨fun _ _ hangs => hangs.insert h.indexed hclosure, Closure.hangs_insert h.indexed hclosure⟩

theorem Housed.addFile (h : c.Housed naming) (hid : (path, id) ∈ c.registry.directories) :
    (c.add ⟨file.name, naming.spell path, file.stat⟩ (some id)).Housed naming := by
  cases hnext : c.store.nextId? with
  | none => rwa [add_of_none hnext]
  | some next =>
    have hcontains := h.consistent.registered _ hid
    obtain ⟨hold, hnew⟩ := h.consistent.hangs_add ⟨file.name, naming.spell path, file.stat⟩
      (storesParent_some hcontains) hnext
    have hextends : c.Extends (c.add ⟨file.name, naming.spell path, file.stat⟩ (some id)) :=
      ⟨by rw [registry_add]; exact List.Subset.refl _, hold⟩
    have hmem := hextends.directories hid
    refine ⟨h.consistent.addFile hcontains, ?_, ?_, fun q d hd => ?_, fun e he => ?_⟩
    · rw [registry_add]
      exact h.keys_nodup
    · rw [registry_add]
      exact h.ids_nodup
    · rw [registry_add] at hd
      exact (h.directory q d hd).mono hextends
    · rcases (mem_add hnext).mp he with he | rfl
      · exact (h.entry e he).mono hextends
      · exact .inr ⟨path, id, hmem, rfl, hnew⟩

theorem Housed.addFiles (h : c.Housed naming) (hid : (path, id) ∈ c.registry.directories) :
    (c.addFiles (naming.spell path) id files).Housed naming := by
  induction files generalizing c with
  | nil => exact h
  | cons file files ih => exact ih (h.addFile hid) (by rwa [registry_add])

/-- The next number is not that of a directory. -/
theorem Consistent.nextId_not_mem (h : c.Consistent) (hid : c.store.nextId? = some id) :
    id ∉ c.registry.directories.map Prod.snd := by
  intro hmem
  obtain ⟨d, hd, rfl⟩ := List.mem_map.mp hmem
  have hlt := Catalog.contains_iff.mp (h.registered d hd)
  exact hlt.ne (nextId?_eq_some_iff.mp hid).2

/-- What a directory below another one is linked below. -/
theorem Housed.parent?_child {parent : RelPath} {name : Segment} {parentId : EntryId}
    (h : c.Housed naming) (hin : (parent, parentId) ∈ c.registry.directories) :
    c.registry.parent? (parent.child name) = some parentId := by
  rw [Registry.parent?, RelPath.split?_child, Option.bind_some]
  exact (Registry.get?_eq_some_iff h.keys_nodup).mpr hin

/-- What it takes for a directory to be added: it is new, and the one that holds it is there. -/
theorem Housed.addDirectory {stat : Stat} (h : c.Housed naming) (hnew : path ∉ c.registry.keys)
    (hparent : ∀ d ∈ path.split?, d.1 ∈ c.registry.keys) (hid : c.store.nextId? = some id) :
    (c.addDirectory naming path stat id).Housed naming := by
  have hparent? : c.StoresParent (c.registry.parent? path) := h.consistent.storesParent
  have hadded := h.consistent.hangs_add (path.entry naming stat) hparent? hid
  have hextends : c.Extends (c.addDirectory naming path stat id) :=
    ⟨List.subset_append_left _ _, hadded.1⟩
  have hself : (path, id) ∈ (c.addDirectory naming path stat id).registry.directories :=
    List.mem_append_right _ (List.mem_singleton.mpr rfl)
  have hangs : (c.addDirectory naming path stat id).closure.Hangs id (c.registry.parent? path) :=
    hadded.2
  -- the new directory is the root, or hangs below the one that holds it
  have hhome : path = .root ∨ ∃ parent name parentId, path = RelPath.child parent name ∧
      (parent, parentId) ∈ (c.addDirectory naming path stat id).registry.directories ∧
        (c.addDirectory naming path stat id).closure.Hangs id (some parentId) := by
    rcases RelPath.root_or_child path with hroot | ⟨parent, name, hpath⟩
    · exact .inl hroot
    · obtain ⟨parentId, hin⟩ :=
        Registry.mem_keys_iff.mp (hparent _ (RelPath.split?_eq_some_iff.mpr hpath))
      have hparent? : c.registry.parent? path = some parentId := hpath ▸ h.parent?_child hin
      exact .inr ⟨parent, name, parentId, hpath, hextends.directories hin, hparent? ▸ hangs⟩
  refine ⟨h.consistent.addDirectory hid, ?_, ?_, fun q d hd => ?_, fun e he => ?_⟩
  · rw [Catalog.addDirectory, Registry.keys_add, ← List.concat_eq_append]
    exact h.keys_nodup.concat hnew
  · rw [Catalog.addDirectory, Registry.add, List.map_append, List.map_singleton,
      ← List.concat_eq_append]
    exact h.ids_nodup.concat (h.consistent.nextId_not_mem hid)
  · rcases List.mem_append.mp hd with hd | hd
    · exact (h.directory q d hd).mono hextends
    · obtain ⟨rfl, rfl⟩ := Prod.mk.inj (List.mem_singleton.mp hd)
      rcases hhome with rfl | hhome
      · exact .inl ⟨rfl, hangs⟩
      · exact .inr hhome
  · rcases (mem_add hid).mp he with he | rfl
    · exact (h.entry e he).mono hextends
    · rcases hhome with rfl | ⟨parent, name, parentId, hpath, hin, hangs⟩
      · exact .inl ⟨hself, rfl⟩
      · refine .inr ⟨parent, parentId, hin, ?_, hangs⟩
        rw [RelPath.entry, RelPath.split?_eq_some_iff.mpr hpath]

theorem Housed.enter (h : c.Housed naming) (hnew : path ∉ c.registry.keys)
    (hparent : ∀ d ∈ path.split?, d.1 ∈ c.registry.keys) :
    (c.enter naming path v).Housed naming := by
  cases hid : c.store.nextId? with
  | none => rwa [Catalog.enter, hid]
  | some id =>
    rw [enter_of_some hid]
    exact (h.addDirectory hnew hparent hid).addFiles
      (List.mem_append_right _ (List.mem_singleton.mpr rfl))

/-! ## Distances are lengths -/

/-- **How far a directory is below another one.** -/
theorem Housed.depth?_directory (h : c.Housed naming) (hs : c.closure.Fits) {p q : RelPath}
    {d : EntryId} {k : Nat} (hp : (p, r) ∈ c.registry.directories)
    (hq : (q, d) ∈ c.registry.directories) : c.closure.depth? r d = some k ↔
      p.segments <+: q.segments ∧ p.segments.length + k = q.segments.length := by
  -- the same entry is the same path
  have hsame : ∀ {q d}, (q, d) ∈ c.registry.directories → (d = r ↔ q = p) := by
    intro q d hq
    constructor
    · rintro rfl
      exact congrArg Prod.fst (List.inj_on_of_nodup_map h.ids_nodup hq hp rfl)
    · rintro rfl
      exact Registry.eq_of_mem h.keys_nodup hq hp
  induction q using RelPath.induction_child generalizing d k with
  | root =>
    rcases h.directory _ _ hq with ⟨-, hangs⟩ | ⟨parent, name, _, hroot, -, -⟩
    · rw [hangs.depth?_eq hs, RelPath.root, List.prefix_nil, ← RelPath.eq_root_iff]
      by_cases hd : d = r
      · have hroot := (hsame hq).mp hd
        simp [hd, ← hroot, RelPath.root, eq_comm]
      · have hroot : p ≠ .root := fun hroot => hd ((hsame hq).mpr hroot.symm)
        simp [hd, hroot]
    · exact absurd hroot.symm RelPath.child_ne_root
  | child q s ih =>
    rcases h.directory _ _ hq with ⟨hroot, -⟩ | ⟨parent, name, parentId, heq, hin, hangs⟩
    · exact absurd hroot RelPath.child_ne_root
    · obtain ⟨rfl, rfl⟩ := RelPath.child_inj.mp heq
      rw [hangs.depth?_eq hs]
      by_cases hd : d = r
      · obtain rfl := (hsame hq).mp hd
        simp [hd, eq_comm]
      · have hne : p.segments ≠ q.segments ++ [s] := by
          intro hsegments
          exact hd ((hsame hq).mpr (RelPath.segments_inj.mp hsegments).symm)
        rw [if_neg hd, Option.bind_some, Option.map_eq_some_iff, RelPath.child,
          List.prefix_concat_iff, List.length_append, List.length_singleton]
        constructor
        · rintro ⟨j, hj, rfl⟩
          obtain ⟨hpre, hlength⟩ := (ih hin).mp hj
          exact ⟨.inr hpre, by omega⟩
        · rintro ⟨hpre, hlength⟩
          have hpre := hpre.resolve_left hne
          have hle := hpre.length_le
          exact ⟨k - 1, (ih hin).mpr ⟨hpre, by omega⟩, by omega⟩

/-- How far an entry is below a directory. -/
theorem Housed.depth?_entry (h : c.Housed naming) (hs : c.closure.Fits) {p : RelPath}
    (hp : (p, r) ∈ c.registry.directories) (he : e ∈ c.store.toList) :
    ∃ home : RelPath, e.directory = naming.spell home ∧ ∀ k, c.closure.depth? r e.id = some k ↔
      if e.id = r then k = 0
      else p.segments <+: home.segments ∧ p.segments.length + k = home.segments.length + 1 := by
  rcases h.entry e he with ⟨hroot, hdirectory⟩ | ⟨home, homeId, hin, hdirectory, hangs⟩
  · refine ⟨.root, hdirectory, fun k => ?_⟩
    rw [h.depth?_directory hs hp hroot, RelPath.root, List.prefix_nil, ← RelPath.eq_root_iff]
    split
    · rename_i hid
      have hpair : (p, r) = (RelPath.root, e.id) :=
        List.inj_on_of_nodup_map h.ids_nodup hp hroot hid.symm
      obtain rfl := (Prod.mk.inj hpair).1
      simp [RelPath.root]
    · rename_i hid
      have hne : p ≠ .root := by
        rintro rfl
        exact hid (Registry.eq_of_mem h.keys_nodup hroot hp)
      simp [hne]
  · refine ⟨home, hdirectory, fun k => ?_⟩
    rw [hangs.depth?_eq hs]
    split
    · simp [eq_comm]
    · rw [Option.bind_some, Option.map_eq_some_iff]
      constructor
      · rintro ⟨j, hj, rfl⟩
        obtain ⟨hpre, hlength⟩ := (h.depth?_directory hs hp hin).mp hj
        exact ⟨hpre, by omega⟩
      · rintro ⟨hpre, hlength⟩
        have hle := hpre.length_le
        exact ⟨k - 1, (h.depth?_directory hs hp hin).mpr ⟨hpre, by omega⟩, by omega⟩

end Catalog

/-! ## Every entry but the root has two edges -/

namespace Catalog

variable {c : Catalog} {naming : Naming} {path : RelPath} {new : NewEntry} {id p : EntryId}
  {v : DirectoryVisit} {files : List FileRecord}

/-- The entries hang together: all of them but one have an edge to themselves and one to their
parent. -/
def HangsTogether (c : Catalog) : Prop := 2 * c.size ≤ c.closure.edgeCount + 1

theorem Consistent.edgeCount_add (h : c.Consistent) {parent? : Option EntryId}
    (hparent : c.StoresParent parent?) (hid : c.store.nextId? = some id) :
    (c.add new parent?).closure.edgeCount = c.closure.edgeCount +
      ((parent?.elim 0 fun p => (c.closure.ancestors p).length) + 1) := by
  have hclosure := h.insert_closure hparent hid
  rw [add_of_some hid, ← Closure.length_ancestors_insert_self h.indexed hclosure]
  exact Closure.edgeCount_insert h.indexed hclosure

theorem Consistent.length_ancestors_pos (h : c.Consistent) (hp : c.store.contains p) :
    0 < (c.closure.ancestors p).length := by
  obtain ⟨links, hgrown⟩ := h.grown
  obtain ⟨l, hl, rfl⟩ := hgrown.contains_iff_exists.mp (h.contains_iff.mpr hp)
  rw [hgrown.length_ancestors_eq hl]
  exact Nat.succ_pos _

theorem HangsTogether.add (hc : c.HangsTogether) (h : c.Consistent) (hp : c.store.contains p) :
    (c.add new (some p)).HangsTogether := by
  cases hid : c.store.nextId? with
  | none => rwa [add_of_none hid]
  | some id =>
    have hpos := h.length_ancestors_pos hp
    rw [HangsTogether, size_add hid, h.edgeCount_add (storesParent_some hp) hid, Option.elim_some]
    unfold HangsTogether at hc
    omega

theorem HangsTogether.addFiles {directory : String} (hc : c.HangsTogether) (h : c.Consistent)
    (hp : c.store.contains p) : (c.addFiles directory p files).HangsTogether := by
  induction files generalizing c with
  | nil => exact hc
  | cons file files ih => exact ih (hc.add h hp) (h.addFile hp) (contains_add hp)

/-- A root is only added where there is nothing yet. -/
theorem HangsTogether.addDirectory {stat : Stat} (hc : c.HangsTogether) (h : c.Consistent)
    (hid : c.store.nextId? = some id) (hroot : c.registry.parent? path = none → c.size = 0) :
    (c.addDirectory naming path stat id).HangsTogether := by
  have hadd : (c.add (path.entry naming stat) (c.registry.parent? path)).HangsTogether := by
    cases hparent : c.registry.parent? path with
    | some p =>
      have hstored : c.StoresParent (c.registry.parent? path) := h.storesParent
      exact hc.add h (hstored p hparent)
    | none =>
      rw [HangsTogether, size_add hid, hroot hparent, h.edgeCount_add storesParent_none hid]
      omega
  exact hadd

end Catalog

/-! ## Subtrees of walked catalogs -/

namespace Indexing

variable {s s₀ : Indexing} {vs : List DirectoryVisit}

/-- **The entries of a walk hang together.** -/
theorem Taken.hangsTogether (h₀ : s₀.catalog.Consistent) (hc : s₀.catalog.HangsTogether)
    (h : Taken s₀ vs s) : s.catalog.HangsTogether := by
  induction h with
  | nil => exact hc
  | @visit vs s v path htaken hadmits ih =>
    have hconsistent := htaken.consistent h₀
    obtain ⟨id, hid⟩ := hadmits.room.exists_nextId
    have hroot : s.catalog.registry.parent? path = none → s.catalog.size = 0 := by
      intro hparent
      have hrefusal := hadmits.refusal?_eq
      rw [refusal?] at hrefusal
      cases hsplit : path.split? with
      | none => simpa [hsplit] using hrefusal
      | some d =>
        -- the directory that holds this one is registered
        rw [Registry.parent?, hsplit, Option.bind_some] at hparent
        have hmem := parent_mem_keys hadmits.refusal?_eq d hsplit
        exact absurd hmem (Registry.get?_eq_none_iff.mp hparent)
    rw [catalog_enter, Catalog.enter_of_some hid]
    exact (ih.addDirectory hconsistent hid hroot).addFiles (hconsistent.addDirectory hid)
      (Catalog.contains_addDirectory hid)

/-- A walk that runs out of numbers has more edges than there are positions. -/
theorem not_fits_of_exhausted {naming : Naming}
    (h : (takeIn {} naming vs).1 = .error .exhausted) :
    ¬ (takeIn {} naming vs).2.catalog.closure.Fits := by
  have hstart := start_consistent naming
  have hempty : (start {} naming).catalog.HangsTogether := by
    obtain ⟨r, -, hcatalog⟩ := start_catalog naming
    rw [hcatalog]
    exact Nat.zero_le _
  obtain ⟨hfull, ws, htaken⟩ := taken_of_exhausted hstart (Prod.ext h rfl)
  have htogether := htaken.hangsTogether hstart hempty
  rw [Catalog.HangsTogether, hfull] at htogether
  intro hfits
  have hmany : 2 ^ 32 + 1 < 2 * EntryId.capacity := by decide
  exact absurd hfits (Nat.not_le_of_lt (Nat.lt_of_succ_lt_succ (hmany.trans_le htogether)))

theorem Taken.housed (h₀ : s₀.catalog.Housed s₀.naming) (h : Taken s₀ vs s) :
    s.catalog.Housed s.naming := by
  induction h with
  | nil => exact h₀
  | visit htaken hadmits ih =>
    rw [catalog_enter, naming_enter]
    exact ih.enter (not_mem_keys ih.consistent hadmits.refusal?_eq)
      (parent_mem_keys hadmits.refusal?_eq)

theorem start_housed (naming : Naming) :
    (start {} naming).catalog.Housed (start {} naming).naming := by
  obtain ⟨r, hr, hcatalog⟩ := start_catalog naming
  rw [hcatalog, start_naming]
  exact Catalog.housed_empty hr

theorem Taken.housed_start {naming : Naming} (h : Taken (start {} naming) vs s) :
    s.catalog.Housed naming := by
  have housed := h.housed (start_housed naming)
  rw [h.naming_eq, start_naming] at housed
  exact housed

/-- **The subtree of a directory is what its path is a prefix of.** -/
theorem mem_subtree_visitEach {visits : List DirectoryVisit} {c : Catalog} {p : String}
    {r : EntryId} {e : Entry} (hc : ((start {} .relative).visitEach visits).catalog = c)
    (hs : c.closure.Fits) (hr : c.registry.getText? p = some r) (he : e ∈ c.store.toList) :
    ((∃ k, (e, k) ∈ c.subtree r) ↔
        e.id = r ∨ p = "." ∨ e.directory = p ∨ ∃ rest, e.directory = p ++ "/" ++ rest) ∧
      ∀ k, (e, k) ∈ c.subtree r →
        if e.id = r then k = 0 else segmentCount p + k = segmentCount e.directory + 1 := by
  obtain ⟨ws, htaken⟩ := visitEach_taken (start_consistent .relative) visits
  have housed := htaken.housed_start
  rw [hc] at housed
  obtain ⟨path, rfl, hpath⟩ := (Registry.getText?_eq_some_iff housed.keys_nodup).mp hr
  obtain ⟨home, hhome, hdepth⟩ := housed.depth?_entry hs hpath he
  have hdirectory : e.directory = home.text := hhome
  have hbelow := RelPath.isPrefix_iff_text (p := path) (q := home)
  simp only [housed.consistent.mem_subtree_iff hs, he, true_and, hdepth, hdirectory,
    RelPath.segmentCount_text]
  by_cases hself : e.id = r
  · simp [hself]
  · simp only [hself, if_false, false_or]
    refine ⟨?_, fun k hk => hk.2⟩
    constructor
    · rintro ⟨k, hpre, -⟩
      exact hbelow.mp hpre
    · intro htext
      have hpre := hbelow.mpr htext
      have hle := hpre.length_le
      exact ⟨home.segments.length + 1 - path.segments.length, hpre, by omega⟩

/-- `ab` is not below `a`, the file of `a/b` is, and two visits are passed over. -/
theorem mem_subtree_visitEach_boundary :
    let visits : List DirectoryVisit :=
      [{ directory := ".", stat := .plain .directory 0 },
        { directory := "a/b", stat := .plain .directory 0 },
        { directory := "a", stat := .plain .directory 0, files := [⟨"f", .plain .regular 1⟩] },
        { directory := "ab", stat := .plain .directory 0 },
        { directory := "../a", stat := .plain .directory 0 },
        { directory := "./a//b", stat := .plain .directory 0,
          files := [⟨"g", .plain .regular 2⟩] }]
    let c := ((start {} .relative).visitEach visits).catalog
    c.closure.Fits ∧ c.registry.getText? "a" = some (.ofSlot 1) ∧
      ⟨⟨"g", "a/b", .plain .regular 2⟩, .ofSlot 5⟩ ∈ c.store.toList ∧
      (c.subtree (.ofSlot 1)).map (fun d => (d.1.name, d.2)) =
        [("a", 0), ("f", 1), ("b", 1), ("g", 2)] ∧
      ((∃ k, (⟨⟨"g", "a/b", .plain .regular 2⟩, .ofSlot 5⟩, k) ∈ c.subtree (.ofSlot 1)) ↔
        EntryId.ofSlot 5 = .ofSlot 1 ∨ "a" = "." ∨ "a/b" = "a" ∨
          ∃ rest, "a/b" = "a" ++ "/" ++ rest) := by
  intro visits c
  have hs : c.closure.Fits := by
    unfold Closure.Fits
    decide +kernel
  have hr : c.registry.getText? "a" = some (.ofSlot 1) := by decide +kernel
  have he : (⟨⟨"g", "a/b", .plain .regular 2⟩, .ofSlot 5⟩ : Entry) ∈ c.store.toList := by
    decide +kernel
  exact ⟨hs, hr, he, by decide +kernel, (mem_subtree_visitEach rfl hs hr he).1⟩

end Indexing

end TreeQuery
