import Mathlib.Data.List.Basic
import TreeQuery.Proofs.Path.Spelling
import TreeQuery.Proofs.Tree.Rebuilding

/-!
# Shown paths are addresses

The entries of a walk stand in the order in which its visits bring them, and so do their places
below the root (`DirectoryVisit.placeTexts`). An entry is shown with the spelling of its place
(`fullPath_brings`), so entries of different places are told apart, and the registry finds a
directory again under the path that it is shown with.

**`takeIn_addressed`** says this of every walk that an empty catalog takes in, for relative and
absolute spellings.
-/

namespace TreeQuery

/-! ## Places -/

/-- The spelling of a place that is given by its canonical text. -/
def Naming.spellText (naming : Naming) (place : String) : String :=
  match naming with
  | relative => place
  | absolute root =>
    if place = RelPath.rootText then root
    else if root.toList.getLast? = some '/' then root ++ place
    else root ++ "/" ++ place

theorem Naming.spellText_text (naming : Naming) (p : RelPath) :
    naming.spellText p.text = naming.spell p := by
  cases naming with
  | relative => rfl
  | absolute root => simp only [spellText, spell, RelPath.text_eq_rootText_iff]

namespace DirectoryVisit

variable {v : DirectoryVisit} {naming : Naming} {path : RelPath}

/-- The places of the entries that a visit brings: that of the directory, then those of its
files. -/
def placeTexts (v : DirectoryVisit) : List String :=
  match v.path? with
  | none => []
  | some path => path.text :: v.files.map fun file => childText path.text file.name

/-- The names of the files can stand in paths. -/
def PlainFiles (v : DirectoryVisit) : Prop :=
  ∀ file ∈ v.files, IsOrdinary file.name.toList

instance (v : DirectoryVisit) : Decidable v.PlainFiles := by
  unfold PlainFiles; infer_instance

theorem placeTexts_eq (h : v.path? = some path) :
    v.placeTexts = path.text :: v.files.map fun file => childText path.text file.name := by
  rw [placeTexts, h]

theorem length_placeTexts (v : DirectoryVisit) (naming : Naming) :
    v.placeTexts.length = (v.brings naming).length := by
  cases h : v.path? with
  | none => rw [placeTexts, brings, h]; rfl
  | some path => rw [placeTexts_eq h, brings_eq h, entries]; simp

theorem fullPath_entry (hnaming : naming.Rooted) (path : RelPath) (stat : Stat) :
    (path.entry naming stat).fullPath = naming.spell path := by
  rcases path.root_or_child with rfl | ⟨parent, name, rfl⟩
  · rfl
  · rw [RelPath.entry, RelPath.split?_child]
    exact NewEntry.fullPath_child hnaming

/-- **What a visit brings is shown as its places are spelled.** -/
theorem fullPath_brings (hnaming : naming.Rooted) (hfiles : v.PlainFiles) :
    (v.brings naming).map NewEntry.fullPath = v.placeTexts.map naming.spellText := by
  cases h : v.path? with
  | none => rw [placeTexts, brings, h]; rfl
  | some path =>
    rw [placeTexts_eq h, brings_eq h, entries, List.map_cons, List.map_cons,
      fullPath_entry hnaming, naming.spellText_text, List.map_map, List.map_map]
    congr 1
    refine List.map_congr_left fun file hfile => ?_
    let name : Segment := ⟨file.name.toList, hfiles file hfile⟩
    have hname : file.name = name.text := String.ofList_toList.symm
    have hshown : (NewEntry.mk name.text (naming.spell path) file.stat).fullPath = _ :=
      NewEntry.fullPath_child hnaming
    rw [← naming.spellText_text (path.child name), RelPath.text_child, ← hname] at hshown
    exact hshown

end DirectoryVisit

namespace Indexing

variable {naming : Naming} {s s₀ : Indexing} {vs : List DirectoryVisit}

/-! ## The absolute root -/

theorem absoluteRoot?_start (naming : Naming) :
    (start {} naming).catalog.registry.absoluteRoot? = naming.trimmedRoot? := by
  cases naming <;> rfl

/-- A walk does not change the absolute root. -/
theorem Taken.absoluteRoot?_eq (h : Taken s₀ vs s) :
    s.catalog.registry.absoluteRoot? = s₀.catalog.registry.absoluteRoot? := by
  induction h with
  | nil => rfl
  | visit _ hadmits ih =>
    obtain ⟨id, hid⟩ := hadmits.room.exists_nextId
    rw [catalog_enter, Catalog.registry_enter hid, Registry.add, ih]

/-! ## The entries and their places -/

/-- An entry that the visits bring, and its place below the root. -/
def PlacedAt (vs : List DirectoryVisit) (c : Catalog) (place : String) (e : Entry) : Prop :=
  ∃ i : Nat, (vs.flatMap DirectoryVisit.placeTexts)[i]? = some place ∧
    c.store.toList[i]? = some e

theorem Taken.fullPaths (h : Taken (start {} naming) vs s) (hnaming : naming.Rooted)
    (hfiles : ∀ v ∈ vs, v.PlainFiles) :
    s.catalog.store.toList.map (fun e => e.fullPath) =
      (vs.flatMap DirectoryVisit.placeTexts).map naming.spellText := by
  have hstored := congrArg (List.map NewEntry.fullPath) h.stored
  rw [List.map_map, List.map_flatMap] at hstored
  rw [List.map_flatMap]
  exact hstored.trans (List.flatMap_congr fun v hv => v.fullPath_brings hnaming (hfiles v hv))

theorem Taken.fullPath_eq (h : Taken (start {} naming) vs s) (hnaming : naming.Rooted)
    (hfiles : ∀ v ∈ vs, v.PlainFiles) {place : String} {e : Entry}
    (he : PlacedAt vs s.catalog place e) : e.fullPath = naming.spellText place := by
  obtain ⟨i, hplace, hentry⟩ := he
  have hrow := congrArg (·[i]?) (h.fullPaths hnaming hfiles)
  simp only [List.getElem?_map, hplace, hentry, Option.map_some, Option.some.injEq] at hrow
  exact hrow

/-- The places of a walk are canonical. -/
theorem exists_text_of_mem_placeTexts {v : DirectoryVisit} (hfiles : v.PlainFiles)
    {place : String} (h : place ∈ v.placeTexts) : ∃ p : RelPath, p.text = place := by
  cases hpath : v.path? with
  | none => simp [DirectoryVisit.placeTexts, hpath] at h
  | some path =>
    rw [DirectoryVisit.placeTexts_eq hpath] at h
    rcases List.mem_cons.mp h with rfl | h
    · exact ⟨path, rfl⟩
    · obtain ⟨file, hfile, rfl⟩ := List.mem_map.mp h
      refine ⟨path.child ⟨file.name.toList, hfiles file hfile⟩, ?_⟩
      rw [RelPath.text_child, Segment.text, String.ofList_toList]

theorem spellText_inj (hfiles : ∀ v ∈ vs, v.PlainFiles)
    {place place' : String} (h : place ∈ vs.flatMap DirectoryVisit.placeTexts)
    (h' : place' ∈ vs.flatMap DirectoryVisit.placeTexts) :
    naming.spellText place = naming.spellText place' ↔ place = place' := by
  obtain ⟨v, hv, hmem⟩ := List.mem_flatMap.mp h
  obtain ⟨v', hv', hmem'⟩ := List.mem_flatMap.mp h'
  obtain ⟨p, rfl⟩ := exists_text_of_mem_placeTexts (hfiles v hv) hmem
  obtain ⟨q, rfl⟩ := exists_text_of_mem_placeTexts (hfiles v' hv') hmem'
  rw [naming.spellText_text, naming.spellText_text, Naming.spell_inj, RelPath.text_inj]

/-- **A directory is found under its place and under the path that it is shown with.** -/
theorem Taken.resolve?_directory (h : Taken (start {} naming) vs s) (hnaming : naming.Rooted)
    {before after : List DirectoryVisit} {v : DirectoryVisit} {path : RelPath}
    (hsplit : vs = before ++ v :: after) (hpath : v.path? = some path) :
    ∃ e, s.catalog.store.toList[(before.flatMap DirectoryVisit.placeTexts).length]? = some e ∧
      s.catalog.registry.resolve? (naming.spell path) = some e.id ∧
      s.catalog.registry.resolve? path.text = some e.id := by
  have housed := h.housed_start
  have hlength : (before.flatMap DirectoryVisit.placeTexts).length =
      (before.flatMap fun v => v.brings naming).length := by
    simp only [List.length_flatMap, DirectoryVisit.length_placeTexts _ naming]
  obtain ⟨id, hslot, hmem⟩ := h.exists_directory hsplit hpath
  have hget := (Registry.get?_eq_some_iff housed.keys_nodup).mpr hmem
  have hlt := Catalog.contains_iff.mp (housed.consistent.registered _ hmem)
  rw [hslot, ← hlength] at hlt
  obtain ⟨e, hentry⟩ : ∃ e,
      s.catalog.store.toList[(before.flatMap DirectoryVisit.placeTexts).length]? = some e :=
    ⟨_, List.getElem?_eq_getElem hlt⟩
  have hid := housed.consistent.slot_eq hentry
  rw [hlength, ← hslot, EntryId.slot_inj] at hid
  refine ⟨e, hentry, ?_, ?_⟩
  · have hroot : s.catalog.registry.absoluteRoot? = naming.trimmedRoot? :=
      h.absoluteRoot?_eq.trans (absoluteRoot?_start naming)
    rw [Registry.resolve?, Registry.place?_spell hnaming hroot, hid]
    exact hget
  · rw [Registry.resolve?, Registry.place?_text, hid]
    exact hget

/-! ## Addresses -/

/-- **Entries are found by the paths that they are shown with.** -/
structure Addressed (naming : Naming) (vs : List DirectoryVisit) (c : Catalog) : Prop where
  /-- Every entry has a place, and there is one for every place. -/
  length_eq : (vs.flatMap DirectoryVisit.placeTexts).length = c.store.toList.length
  fullPath_eq : ∀ place e, PlacedAt vs c place e → e.fullPath = naming.spellText place
  fullPath_ne : ∀ place place' e e', PlacedAt vs c place e → PlacedAt vs c place' e' →
    place ≠ place' → e.fullPath ≠ e'.fullPath
  /-- The entry of a visited directory is the first that its visit brings. -/
  resolve?_eq : ∀ before v after path, vs = before ++ v :: after → v.path? = some path →
    ∃ e, c.store.toList[(before.flatMap DirectoryVisit.placeTexts).length]? = some e ∧
      PlacedAt vs c path.text e ∧ c.registry.resolve? e.fullPath = some e.id ∧
      c.registry.resolve? path.text = some e.id

theorem Taken.addressed (h : Taken (start {} naming) vs s) (hnaming : naming.Rooted)
    (hfiles : ∀ v ∈ vs, v.PlainFiles) : Addressed naming vs s.catalog where
  length_eq := by
    have hlength := congrArg List.length (h.fullPaths hnaming hfiles)
    rw [List.length_map, List.length_map] at hlength
    exact hlength.symm
  fullPath_eq := fun _ _ he => h.fullPath_eq hnaming hfiles he
  fullPath_ne := fun place place' e e' he he' hne heq => by
    rw [h.fullPath_eq hnaming hfiles he, h.fullPath_eq hnaming hfiles he'] at heq
    obtain ⟨_, hplace, -⟩ := he
    obtain ⟨_, hplace', -⟩ := he'
    exact hne ((spellText_inj hfiles (List.mem_of_getElem? hplace)
      (List.mem_of_getElem? hplace')).mp heq)
  resolve?_eq := fun before v after path hsplit hpath => by
    obtain ⟨e, hentry, hshown, hplace⟩ := h.resolve?_directory hnaming hsplit hpath
    have hplaced : PlacedAt vs s.catalog path.text e := by
      refine ⟨_, ?_, hentry⟩
      rw [hsplit, List.flatMap_append, List.flatMap_cons, DirectoryVisit.placeTexts_eq hpath]
      simp
    refine ⟨e, hentry, hplaced, ?_, hplace⟩
    rw [h.fullPath_eq hnaming hfiles hplaced, naming.spellText_text]
    exact hshown

/-- **Shown paths are addresses**, after every walk that an empty catalog takes in. -/
theorem takeIn_addressed {visits : List DirectoryVisit} (hnaming : naming.Rooted)
    (hfiles : ∀ v ∈ visits, v.PlainFiles) (hok : (takeIn {} naming visits).1 = .ok ()) :
    Addressed naming visits (takeIn {} naming visits).2.catalog :=
  (taken_of_takeIn hok).addressed hnaming hfiles

/-- A root with slashes at its end, and directories that are visited under odd spellings. -/
theorem takeIn_addressed_slashes :
    let visits : List DirectoryVisit :=
      [{ directory := "./", stat := .plain .directory 0, files := [⟨"b", .plain .regular 1⟩] },
        { directory := "a/", stat := .plain .directory 0, files := [⟨"...", .plain .fifo 0⟩] },
        { directory := "a//./b", stat := .plain .directory 0 }]
    let c := (takeIn {} (.absolute "/data//") visits).2.catalog
    (Naming.absolute "/data//").Rooted ∧ (∀ v ∈ visits, v.PlainFiles) ∧
      (takeIn {} (.absolute "/data//") visits).1 = .ok () ∧
      c.store.toList.map (fun e => e.fullPath) =
        ["/data//", "/data//b", "/data//a", "/data//a/...", "/data//a/b"] ∧
      c.registry.resolve? "/data//a/b" = some (.ofSlot 4) ∧
      Addressed (.absolute "/data//") visits c := by
  intro visits c
  have hnaming : (Naming.absolute "/data//").Rooted := by
    rintro root ⟨⟩
    decide +kernel
  have hfiles : ∀ v ∈ visits, v.PlainFiles := by decide +kernel
  have hok : (takeIn {} (.absolute "/data//") visits).1 = .ok () := by decide +kernel
  exact ⟨hnaming, hfiles, hok, by decide +kernel, by decide +kernel,
    takeIn_addressed hnaming hfiles hok⟩

end Indexing

end TreeQuery
