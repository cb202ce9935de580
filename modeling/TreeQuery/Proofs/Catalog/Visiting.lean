import Mathlib.Data.List.Nodup
import Mathlib.Data.Option.Basic
import TreeQuery.Catalog.Indexing
import TreeQuery.Proofs.Catalog.Lineage
import TreeQuery.Proofs.Path.Canonical

/-!
# What a visit does

A visit stores a directory, registers it and stores its files, and each of these steps may fail on
its own. `Catalog.Consistent` rules out that one is refused after another has been made. So a visit
does one of three things (`visit_outcome`). It is refused before anything happened, for the reason
that `Indexing.fault?` gives; or it is taken in as a whole, which leads to `Indexing.enter`; or the
numbers run out on the way. Then what has come in is as if the visit had brought no more than that
(`DirectoryVisit.cut`).

The other modules about catalogs only use `fault?`, `enter` and what is said of them here. The
computations themselves are not opened again.
-/

namespace TreeQuery

/-! ## Running a computation -/

namespace Build

variable {σ τ α β : Type} {m : Build σ α} {f : α → Build σ β} {s t : σ}

/-- The result of a computation, and the state that it leaves. -/
def exec (m : Build σ α) (s : σ) : Except Halt α × σ :=
  m.run.run s

theorem exec_bind : (m >>= f).exec s =
    match m.exec s with
    | (.ok a, t) => (f a).exec t
    | (.error e, t) => (.error e, t) := by
  simp only [exec, ExceptT.run_bind, StateT.run_bind]
  rcases m.run.run s with ⟨_ | _, t⟩ <;> rfl

theorem exec_bind_ok {a : α} (h : m.exec s = (.ok a, t)) : (m >>= f).exec s = (f a).exec t := by
  rw [exec_bind, h]

theorem exec_bind_error {e : Halt} (h : m.exec s = (.error e, t)) :
    (m >>= f).exec s = (.error e, t) := by
  rw [exec_bind, h]

theorem exec_throw (e : Halt) : (throw e : Build σ α).exec s = (.error e, s) := rfl

theorem exec_ofExcept (r : Except Halt α) :
    (MonadExcept.ofExcept r : Build σ α).exec s = (r, s) := by
  cases r <;> rfl

theorem exec_get : (get : Build σ σ).exec s = (.ok s, s) := rfl

theorem exec_set : (set t : Build σ PUnit).exec s = (.ok ⟨⟩, t) := rfl

theorem exec_modify (g : σ → σ) : (modify g : Build σ PUnit).exec s = (.ok ⟨⟩, g s) := rfl

theorem exec_update {g : σ → Except Halt σ} (h : g s = .ok t) :
    (update g).exec s = (.ok (), t) := by
  unfold update
  rw [exec_bind_ok exec_get, h, exec_set]

theorem exec_onPart {part : σ → τ} {replace : σ → τ → σ} {m : Build τ α}
    {result : Except Halt α} {p : τ} (h : m.exec (part s) = (result, p)) :
    (onPart part replace m).exec s = (result, replace s p) := by
  have honPart : (onPart part replace m).exec s =
      ((m.exec (part s)).1, replace s (m.exec (part s)).2) := rfl
  rw [honPart, h]

end Build

open Build

/-! ## The registry -/

namespace Registry

variable {r : Registry} {path : RelPath} {id : EntryId}

/-- The paths of the registered directories, in the order in which they came. -/
def keys (r : Registry) : List RelPath := r.directories.map Prod.fst

/-- The entry of the directory that holds a path. -/
def parent? (r : Registry) (path : RelPath) : Option EntryId :=
  path.split?.bind fun d => r.get? d.1

/-- The registry with one more directory. -/
def add (r : Registry) (path : RelPath) (id : EntryId) : Registry :=
  { r with directories := r.directories ++ [(path, id)] }

theorem keys_add : (r.add path id).keys = r.keys ++ [path] := by
  simp [keys, add]

theorem get?_eq_none_iff : r.get? path = none ↔ path ∉ r.keys := by
  rw [get?, List.lookup_eq_none_iff, keys, List.mem_map]
  constructor
  · rintro h ⟨d, hd, rfl⟩
    exact absurd rfl (bne_iff_ne.mp (h d hd))
  · intro h d hd
    exact bne_iff_ne.mpr fun heq => h ⟨d, hd, heq.symm⟩

theorem mem_of_get? (h : r.get? path = some id) : (path, id) ∈ r.directories := by
  obtain ⟨front, rest, hsplit, -⟩ := List.lookup_eq_some_iff.mp h
  rw [hsplit]
  exact List.mem_append_right _ List.mem_cons_self

theorem mem_keys_iff : path ∈ r.keys ↔ ∃ id, (path, id) ∈ r.directories := by
  simp [keys]

/-- A path has one entry. -/
theorem eq_of_mem {id' : EntryId} (h : r.keys.Nodup) (hid : (path, id) ∈ r.directories)
    (hid' : (path, id') ∈ r.directories) : id = id' :=
  congrArg Prod.snd (List.inj_on_of_nodup_map h hid hid' rfl)

theorem get?_eq_some_iff (h : r.keys.Nodup) :
    r.get? path = some id ↔ (path, id) ∈ r.directories := by
  refine ⟨mem_of_get?, fun hmem => ?_⟩
  cases hget : r.get? path with
  | none => exact absurd (mem_keys_iff.mpr ⟨id, hmem⟩) (get?_eq_none_iff.mp hget)
  | some id' => rw [eq_of_mem h hmem (mem_of_get? hget)]

/-- The entry registered under a text is that of the path with this text. -/
theorem getText?_eq_some_iff {key : String} (h : r.keys.Nodup) :
    r.getText? key = some id ↔ ∃ p, p.text = key ∧ (p, id) ∈ r.directories := by
  constructor
  · intro hkey
    obtain ⟨d, hfind, rfl⟩ := Option.map_eq_some_iff.mp hkey
    exact ⟨d.1, by simpa using List.find?_some hfind, List.mem_of_find?_eq_some hfind⟩
  · rintro ⟨p, rfl, hmem⟩
    cases hfind : r.directories.find? fun d => d.1.text == p.text with
    | none => simpa using List.find?_eq_none.mp hfind _ hmem
    | some d =>
      have htext : d.1.text = p.text := by simpa using List.find?_some hfind
      have hd : (p, d.2) ∈ r.directories := by
        rw [← RelPath.text_inj.mp htext]
        exact List.mem_of_find?_eq_some hfind
      rw [getText?, hfind, Option.map_some, eq_of_mem h hmem hd]

end Registry

/-! ## One entry -/

namespace Catalog

variable {c : Catalog} {new : NewEntry} {parent? : Option EntryId} {id : EntryId} {n : Nat}

/-- **A catalog whose parts agree.** -/
structure Consistent (c : Catalog) : Prop where
  size_eq : c.closure.size = c.store.size
  size_le : c.store.size ≤ EntryId.capacity
  grown : ∃ links, Closure.Grown links c.closure
  numbered : c.store.toList.map (fun e => e.id.slot) = List.range c.store.size
  registered : ∀ d ∈ c.registry.directories, c.store.contains d.2

/-- There are numbers left for so many entries. -/
def HasRoom (c : Catalog) (n : Nat) : Prop := c.size + n ≤ EntryId.capacity

/-- The catalog with one more entry, if there is a number for it. -/
def add (c : Catalog) (new : NewEntry) (parent? : Option EntryId) : Catalog :=
  match c.store.nextId? with
  | some id =>
    { c with store := c.store.append ⟨new, id⟩, closure := c.closure.extend id parent? }
  | none => c

theorem empty_consistent (r : Registry) (h : r.directories = []) :
    Consistent { registry := r } := by
  refine ⟨rfl, Nat.zero_le _, ⟨[], .empty⟩, rfl, fun d hd => ?_⟩
  rw [h] at hd
  cases hd

theorem nextId?_eq_some_iff :
    c.store.nextId? = some id ↔ c.HasRoom 1 ∧ id.slot = c.size :=
  EntryId.ofSlot?_eq_some_iff

theorem HasRoom.exists_nextId (h : c.HasRoom (1 + n)) : ∃ id, c.store.nextId? = some id := by
  cases hid : c.store.nextId? with
  | some id => exact ⟨id, rfl⟩
  | none =>
    have hle : EntryId.capacity ≤ c.size := EntryId.ofSlot?_eq_none_iff.mp hid
    unfold HasRoom at h
    omega

theorem add_of_some (hid : c.store.nextId? = some id) : c.add new parent? =
    { c with store := c.store.append ⟨new, id⟩, closure := c.closure.extend id parent? } := by
  rw [add, hid]

theorem add_of_none (hid : c.store.nextId? = none) : c.add new parent? = c := by
  rw [add, hid]

theorem registry_add : (c.add new parent?).registry = c.registry := by
  unfold add
  split <;> rfl

theorem size_add (hid : c.store.nextId? = some id) : (c.add new parent?).size = c.size + 1 := by
  rw [add_of_some hid]
  exact EntryStore.size_append _ _

theorem HasRoom.add (h : c.HasRoom (1 + n)) : (c.add new parent?).HasRoom n := by
  obtain ⟨id, hid⟩ := h.exists_nextId
  rw [HasRoom, size_add hid, Nat.add_assoc]
  exact h

theorem contains_iff : c.store.contains id ↔ id.slot < c.store.size := by
  simp [EntryStore.contains]

theorem Consistent.contains_iff (h : c.Consistent) :
    c.closure.contains id ↔ c.store.contains id := by
  rw [Closure.contains_iff, h.size_eq, Catalog.contains_iff]

theorem Consistent.indexed (h : c.Consistent) : c.closure.Indexed := by
  obtain ⟨links, hgrown⟩ := h.grown
  exact hgrown.indexed

theorem contains_add (hid : c.store.contains id) : (c.add new parent?).store.contains id := by
  cases hnext : c.store.nextId? with
  | none => rwa [add_of_none hnext]
  | some next =>
    rw [Catalog.contains_iff] at hid ⊢
    rw [add_of_some hnext, EntryStore.size_append]
    omega

theorem contains_add_self (hid : c.store.nextId? = some id) :
    (c.add new parent?).store.contains id := by
  rw [Catalog.contains_iff, add_of_some hid, EntryStore.size_append,
    (nextId?_eq_some_iff.mp hid).2]
  exact Nat.lt_succ_self _

/-- The parent of a new entry is stored, if it has one. -/
def StoresParent (c : Catalog) (parent? : Option EntryId) : Prop :=
  ∀ p ∈ parent?, c.store.contains p

theorem storesParent_none : c.StoresParent none := fun _ hp => nomatch hp

theorem storesParent_some (hid : c.store.contains id) : c.StoresParent (some id) := by
  intro p hp
  obtain rfl := Option.some.inj hp
  exact hid

/-- The new entry is linked below its parent. -/
theorem Consistent.insert_closure (h : c.Consistent) (hparent : c.StoresParent parent?)
    (hid : c.store.nextId? = some id) :
    c.closure.insert id parent? = .ok (c.closure.extend id parent?) := by
  refine Closure.insert_eq_ok_iff.mpr ⟨?_, fun p hp => ?_, rfl⟩
  · rw [h.size_eq]
    exact hid
  · exact h.contains_iff.mpr (hparent p hp)

theorem Consistent.add (h : c.Consistent) (new : NewEntry) (hparent : c.StoresParent parent?) :
    (c.add new parent?).Consistent := by
  cases hid : c.store.nextId? with
  | none => rwa [add_of_none hid]
  | some id =>
    obtain ⟨hroom, hslot⟩ := nextId?_eq_some_iff.mp hid
    have hclosure := h.insert_closure hparent hid
    have hcontains : ∀ d, c.store.contains d → (c.add new parent?).store.contains d :=
      fun d hd => contains_add hd
    rw [add_of_some hid] at hcontains ⊢
    refine ⟨?_, ?_, ?_, ?_, fun d hd => hcontains _ (h.registered d hd)⟩
    · rw [Closure.size_insert hclosure, h.size_eq, EntryStore.size_append]
    · rw [EntryStore.size_append]
      exact hroom
    · obtain ⟨links, hgrown⟩ := h.grown
      exact ⟨_, hgrown.insert (l := ⟨id, parent?⟩) hclosure⟩
    · rw [EntryStore.toList_append, List.map_append, h.numbered, EntryStore.size_append,
        List.range_succ, List.map_singleton, hslot]
      rfl

/-- **An entry is stored and linked**, unless there is no number for it. -/
theorem insert_exec (h : c.Consistent) (new : NewEntry) (hparent : c.StoresParent parent?) :
    (insert new parent?).exec c = (Halt.orExhausted c.store.nextId?, c.add new parent?) := by
  have hstored : (do
      let stored ← MonadExcept.ofExcept (Halt.orExhausted (c.store.push? new))
      set { c with store := stored.2 }
      Build.update fun d => return { d with closure := ← d.closure.insert stored.1 parent? }
      return stored.1 : Build Catalog EntryId).exec c =
        (Halt.orExhausted c.store.nextId?, c.add new parent?) := by
    cases hid : c.store.nextId? with
    | none =>
      rw [EntryStore.push?, hid, add_of_none hid]
      exact exec_bind_error (exec_ofExcept _)
    | some id =>
      have hlink : (Build.update fun d : Catalog =>
          return { d with closure := ← d.closure.insert id parent? }).exec
            { c with store := c.store.append ⟨new, id⟩ } = (.ok (), c.add new parent?) := by
        refine exec_update ?_
        rw [h.insert_closure hparent hid, add_of_some hid]
        rfl
      rw [EntryStore.push?, hid]
      exact (exec_bind_ok (exec_ofExcept _)).trans
        ((exec_bind_ok exec_set).trans (exec_bind_ok hlink))
  unfold insert
  rw [exec_bind_ok exec_get]
  cases parent? with
  | none => exact hstored
  | some p =>
    simp only [hparent p rfl, if_true]
    exact hstored

theorem register_exec {path : RelPath} (h : path ∉ c.registry.keys) :
    (register path.text id).exec c = (.ok (), { c with registry := c.registry.add path id }) := by
  refine exec_update ?_
  rw [Registry.register, RelPath.ofText?_text]
  simp only [Registry.get?_eq_none_iff.mpr h]
  rfl

/-! ## The files of a directory -/

/-- The catalog with the files of a directory. -/
def addFiles (c : Catalog) (directory : String) (id : EntryId) (files : List FileRecord) :
    Catalog :=
  files.foldl (fun c file => c.add ⟨file.name, directory, file.stat⟩ (some id)) c

variable {directory : String} {file : FileRecord} {files : List FileRecord}

@[simp] theorem addFiles_nil : c.addFiles directory id [] = c := rfl

theorem addFiles_cons : c.addFiles directory id (file :: files) =
    (c.add ⟨file.name, directory, file.stat⟩ (some id)).addFiles directory id files := rfl

theorem registry_addFiles : (c.addFiles directory id files).registry = c.registry := by
  induction files generalizing c with
  | nil => rfl
  | cons file files ih => rw [addFiles_cons, ih, registry_add]

theorem Consistent.addFile (h : c.Consistent) (hid : c.store.contains id) :
    (c.add ⟨file.name, directory, file.stat⟩ (some id)).Consistent :=
  h.add _ (storesParent_some hid)

theorem Consistent.addFiles (h : c.Consistent) (hid : c.store.contains id) :
    (c.addFiles directory id files).Consistent := by
  induction files generalizing c with
  | nil => exact h
  | cons file files ih => exact ih (h.addFile hid) (contains_add hid)

theorem toList_add (hid : c.store.nextId? = some id) :
    (c.add new parent?).store.toList.map Entry.toNewEntry =
      c.store.toList.map Entry.toNewEntry ++ [new] := by
  rw [add_of_some hid, EntryStore.toList_append, List.map_append]
  rfl

theorem toList_addFiles (h : c.HasRoom files.length) :
    (c.addFiles directory id files).store.toList.map Entry.toNewEntry =
      c.store.toList.map Entry.toNewEntry ++
        files.map fun file => ⟨file.name, directory, file.stat⟩ := by
  induction files generalizing c with
  | nil => simp
  | cons file files ih =>
    rw [List.length_cons, Nat.add_comm] at h
    obtain ⟨next, hnext⟩ := h.exists_nextId
    rw [addFiles_cons, ih h.add, toList_add hnext, List.append_assoc]
    rfl

end Catalog

/-! ## A visit -/

/-- The place of the visited directory. -/
def DirectoryVisit.path? (v : DirectoryVisit) : Option RelPath :=
  RelPath.ofText? v.directory

/-- How many entries a visit brings. -/
def DirectoryVisit.entryCount (v : DirectoryVisit) : Nat := 1 + v.files.length

/-- A visit that ends after so many files. -/
def DirectoryVisit.cut (v : DirectoryVisit) (n : Nat) : DirectoryVisit :=
  { v with subdirectories := [], files := v.files.take n }

/-- The entry of a directory. -/
def RelPath.entry (path : RelPath) (naming : Naming) (stat : Stat) : NewEntry :=
  match path.split? with
  | none => ⟨RelPath.rootText, naming.spell .root, stat⟩
  | some (parent, name) => ⟨name.text, naming.spell parent, stat⟩

/-- The entries that a visit brings: the directory, then its files. -/
def DirectoryVisit.entries (v : DirectoryVisit) (naming : Naming) (path : RelPath) :
    List NewEntry :=
  path.entry naming v.stat :: v.files.map fun file => ⟨file.name, naming.spell path, file.stat⟩

namespace Catalog

variable {c : Catalog} {naming : Naming} {path : RelPath} {v : DirectoryVisit}

/-- The catalog with a directory that was visited: stored, and registered. -/
def addDirectory (c : Catalog) (naming : Naming) (path : RelPath) (stat : Stat) (id : EntryId) :
    Catalog :=
  { c.add (path.entry naming stat) (c.registry.parent? path) with
    registry := c.registry.add path id }

/-- The catalog with all that a visit brings, as far as there are numbers. -/
def enter (c : Catalog) (naming : Naming) (path : RelPath) (v : DirectoryVisit) : Catalog :=
  match c.store.nextId? with
  | some id => (c.addDirectory naming path v.stat id).addFiles (naming.spell path) id v.files
  | none => c

variable {id : EntryId} {stat : Stat}

theorem Consistent.storesParent (h : c.Consistent) :
    c.StoresParent (c.registry.parent? path) := by
  intro p hp
  obtain ⟨d, -, hget⟩ := Option.bind_eq_some_iff.mp hp
  exact h.registered _ (Registry.mem_of_get? hget)

theorem HasRoom.addDirectory {n : Nat} (h : c.HasRoom (1 + n)) :
    (c.addDirectory naming path stat id).HasRoom n := by
  have hadd : (c.add (path.entry naming stat) (c.registry.parent? path)).HasRoom n := h.add
  exact hadd

section

variable (hid : c.store.nextId? = some id)

include hid

theorem contains_addDirectory : (c.addDirectory naming path stat id).store.contains id := by
  have hself : (c.add (path.entry naming stat) (c.registry.parent? path)).store.contains id :=
    contains_add_self hid
  exact hself

theorem Consistent.addDirectory (h : c.Consistent) :
    (c.addDirectory naming path stat id).Consistent := by
  have hadd : (c.add (path.entry naming stat) (c.registry.parent? path)).Consistent :=
    h.add _ h.storesParent
  refine ⟨hadd.size_eq, hadd.size_le, hadd.grown, hadd.numbered, fun d hd => ?_⟩
  rcases List.mem_append.mp hd with hd | hd
  · exact hadd.registered d (by rwa [registry_add])
  · obtain rfl := List.mem_singleton.mp hd
    exact contains_addDirectory hid

theorem enter_of_some : c.enter naming path v =
    (c.addDirectory naming path v.stat id).addFiles (naming.spell path) id v.files := by
  rw [enter, hid]

theorem registry_enter : (c.enter naming path v).registry = c.registry.add path id := by
  rw [enter_of_some hid, registry_addFiles, addDirectory]

end

theorem Consistent.enter (h : c.Consistent) : (c.enter naming path v).Consistent := by
  cases hid : c.store.nextId? with
  | none => rwa [Catalog.enter, hid]
  | some id =>
    rw [enter_of_some hid]
    exact (h.addDirectory hid).addFiles (contains_addDirectory hid)

section

variable (h : c.HasRoom v.entryCount)

include h

theorem keys_enter : (c.enter naming path v).registry.keys = c.registry.keys ++ [path] := by
  obtain ⟨id, hid⟩ := h.exists_nextId
  rw [registry_enter hid, Registry.keys_add]

theorem toList_enter : (c.enter naming path v).store.toList.map Entry.toNewEntry =
    c.store.toList.map Entry.toNewEntry ++ v.entries naming path := by
  obtain ⟨id, hid⟩ := h.exists_nextId
  have hdirectory : (c.addDirectory naming path v.stat id).store.toList.map Entry.toNewEntry =
      c.store.toList.map Entry.toNewEntry ++ [path.entry naming v.stat] := toList_add hid
  rw [enter_of_some hid, toList_addFiles h.addDirectory, hdirectory, List.append_assoc]
  rfl

theorem size_enter : (c.enter naming path v).size = c.size + v.entryCount := by
  have hlength := congrArg List.length (@toList_enter c naming path v h)
  rw [List.length_append, List.length_map, List.length_map, DirectoryVisit.entries,
    List.length_cons, List.length_map] at hlength
  simp only [size, EntryStore.size, EntryStore.toList, Array.length_toList,
    DirectoryVisit.entryCount] at hlength ⊢
  omega

end

end Catalog

namespace Indexing

variable {s : Indexing} {path : RelPath} {v : DirectoryVisit}

/-- Why a directory is refused, if it is. -/
def refusal? (s : Indexing) (path : RelPath) : Option IndexError :=
  match path.split? with
  | none => if s.catalog.size ≠ 0 then some .lateRoot else none
  | some (parent, _) =>
    if path ∈ s.catalog.registry.keys then some (.visitedTwice path)
    else if parent ∈ s.catalog.registry.keys then none else some (.beforeParent path parent)

/-- Why a visit is refused, if it is. -/
def fault? (s : Indexing) (v : DirectoryVisit) : Option IndexError :=
  match v.path? with
  | none => some (.outsideRoot v.directory)
  | some path => s.refusal? path

theorem fault?_eq_none_iff :
    s.fault? v = none ↔ ∃ path, v.path? = some path ∧ s.refusal? path = none := by
  unfold fault?
  cases v.path? <;> simp

/-- **A visit that is taken in**: its directory may come next, and all that it brings gets a
number. -/
structure Admits (s : Indexing) (path : RelPath) (v : DirectoryVisit) : Prop where
  path?_eq : v.path? = some path
  refusal?_eq : s.refusal? path = none
  room : s.catalog.HasRoom v.entryCount

/-- The state after a visit that is taken in. -/
def enter (s : Indexing) (path : RelPath) (v : DirectoryVisit) : Indexing :=
  v.subdirectories.foldl (announce path)
    { arrive path s with
      catalog := s.catalog.enter s.naming path v
      counts := ⟨s.counts.directories + 1, s.counts.files + v.files.length⟩ }

/-- Announcing only concerns what is announced. -/
theorem foldl_announce (s : Indexing) (names : List String) :
    (names.foldl (announce path) s).catalog = s.catalog ∧
      (names.foldl (announce path) s).naming = s.naming ∧
      (names.foldl (announce path) s).counts = s.counts := by
  induction names generalizing s with
  | nil => exact ⟨rfl, rfl, rfl⟩
  | cons name names ih =>
    have hannounce : (announce path s name).catalog = s.catalog ∧
        (announce path s name).naming = s.naming ∧ (announce path s name).counts = s.counts := by
      simp only [announce]
      split <;> exact ⟨rfl, rfl, rfl⟩
    obtain ⟨hcatalog, hnaming, hcounts⟩ := ih (announce path s name)
    exact ⟨hcatalog.trans hannounce.1, hnaming.trans hannounce.2.1,
      hcounts.trans hannounce.2.2⟩

theorem catalog_enter : (s.enter path v).catalog = s.catalog.enter s.naming path v :=
  (foldl_announce _ _).1

theorem naming_enter : (s.enter path v).naming = s.naming :=
  (foldl_announce _ _).2.1

theorem counts_enter : (s.enter path v).counts =
    ⟨s.counts.directories + 1, s.counts.files + v.files.length⟩ :=
  (foldl_announce _ _).2.2

/-- A directory that is not refused is new. -/
theorem not_mem_keys (h : s.catalog.Consistent) (hpath : s.refusal? path = none) :
    path ∉ s.catalog.registry.keys := by
  intro hmem
  rw [refusal?] at hpath
  cases hsplit : path.split? with
  | none =>
    -- the root is only taken into an empty catalog, which has no directories
    have hsize : s.catalog.size = 0 := by simpa [hsplit] using hpath
    obtain ⟨id, hid⟩ := Registry.mem_keys_iff.mp hmem
    have hcontains := Catalog.contains_iff.mp (h.registered _ hid)
    rw [← Catalog.size, hsize] at hcontains
    exact Nat.not_lt_zero _ hcontains
  | some d => simp [hsplit, hmem] at hpath

/-- The directory that holds one that is not refused is there. -/
theorem parent_mem_keys (hpath : s.refusal? path = none) :
    ∀ d ∈ path.split?, d.1 ∈ s.catalog.registry.keys := by
  intro d hd
  by_contra hnot
  simp only [refusal?, Option.mem_def.mp hd, hnot, if_false] at hpath
  split at hpath <;> cases hpath

theorem onCatalog_exec {α : Type} {m : Build Catalog α} {result : Except Halt α} {c : Catalog}
    (h : m.exec s.catalog = (result, c)) :
    (onCatalog m).exec s = (result, { s with catalog := c }) :=
  exec_onPart h

/-- What is wrong with a directory is found before anything is done. -/
theorem insertDirectory_refused (stat : Stat) {e : IndexError}
    (hrefusal : s.refusal? path = some e) :
    (insertDirectory path stat).exec s = (.error (.refused e), s) := by
  unfold insertDirectory
  rw [exec_bind_ok exec_get]
  unfold refusal? at hrefusal
  cases hsplit : path.split? with
  | none =>
    simp only [hsplit] at hrefusal ⊢
    split at hrefusal
    · rename_i hsize
      obtain rfl := Option.some.inj hrefusal
      simp only [hsize, ne_eq, not_false_eq_true, if_true]
      exact exec_bind_error (exec_throw _)
    · cases hrefusal
  | some d =>
    obtain ⟨parent, name⟩ := d
    simp only [hsplit] at hrefusal ⊢
    cases hget : s.catalog.registry.get? path with
    | some id =>
      have hmem := Registry.mem_keys_iff.mpr ⟨id, Registry.mem_of_get? hget⟩
      rw [if_pos hmem] at hrefusal
      obtain rfl := Option.some.inj hrefusal
      simp only [Option.isSome_some, if_true]
      exact exec_bind_error (exec_throw _)
    | none =>
      rw [if_neg (Registry.get?_eq_none_iff.mp hget)] at hrefusal
      split at hrefusal
      · cases hrefusal
      · rename_i hnot
        obtain rfl := Option.some.inj hrefusal
        simp only [Option.isSome_none, Bool.false_eq_true, if_false,
          Registry.get?_eq_none_iff.mpr hnot]
        exact exec_throw _

/-- A directory that is not refused is stored, unless there is no number for it. -/
theorem insertDirectory_exec (h : s.catalog.Consistent) (stat : Stat)
    (hrefusal : s.refusal? path = none) :
    (insertDirectory path stat).exec s =
      (Halt.orExhausted s.catalog.store.nextId?,
        { s with
          catalog := s.catalog.add (path.entry s.naming stat)
            (s.catalog.registry.parent? path) }) := by
  unfold insertDirectory
  rw [exec_bind_ok exec_get]
  unfold refusal? at hrefusal
  cases hsplit : path.split? with
  | none =>
    have hinsert := Catalog.insert_exec h (path.entry s.naming stat) Catalog.storesParent_none
    simp only [RelPath.entry, Registry.parent?, hsplit] at hrefusal hinsert ⊢
    split at hrefusal
    · cases hrefusal
    · rename_i hsize
      simp only [hsize, if_false]
      exact onCatalog_exec hinsert
  | some d =>
    obtain ⟨parent, name⟩ := d
    have hinsert : (Catalog.insert (path.entry s.naming stat)
        (s.catalog.registry.parent? path)).exec s.catalog = _ :=
      Catalog.insert_exec h _ h.storesParent
    simp only [RelPath.entry, Registry.parent?, hsplit, Option.bind_some] at hrefusal hinsert ⊢
    split at hrefusal
    · cases hrefusal
    · rename_i hnot
      split at hrefusal
      · rename_i hmem
        obtain ⟨id, hid⟩ := Option.ne_none_iff_exists'.mp
          (mt Registry.get?_eq_none_iff.mp (not_not.mpr hmem))
        rw [hid] at hinsert
        simp only [Registry.get?_eq_none_iff.mpr hnot, Option.isSome_none, Bool.false_eq_true,
          if_false, hid]
        exact onCatalog_exec hinsert
      · cases hrefusal

/-! ## The files of a visit -/

/-- The state with the files of a directory. -/
def bring (s : Indexing) (path : RelPath) (id : EntryId) (files : List FileRecord) : Indexing :=
  { s with
    catalog := s.catalog.addFiles (s.naming.spell path) id files
    counts := ⟨s.counts.directories, s.counts.files + files.length⟩ }

variable {id : EntryId} {file : FileRecord} {files : List FileRecord}

theorem bring_cons (s : Indexing) (path : RelPath) (id : EntryId) (file : FileRecord)
    (files : List FileRecord) : s.bring path id (file :: files) =
      (s.bring path id [file]).bring path id files := by
  simp only [bring, Catalog.addFiles, List.foldl_cons, List.foldl_nil, List.length_cons,
    List.length_nil, Nat.zero_add, Nat.add_assoc, Nat.add_comm 1]

/-- One file comes in. -/
theorem insertFiles_cons_exec (h : s.catalog.Consistent) (hid : s.catalog.store.contains id)
    {next : EntryId} (hnext : s.catalog.store.nextId? = some next) :
    (insertFiles path id (file :: files)).exec s =
      (insertFiles path id files).exec (s.bring path id [file]) := by
  have hinsert := Catalog.insert_exec h ⟨file.name, s.naming.spell path, file.stat⟩
    (Catalog.storesParent_some hid)
  rw [hnext] at hinsert
  rw [insertFiles, exec_bind_ok exec_get, exec_bind_ok (onCatalog_exec hinsert),
    exec_bind_ok (exec_modify _)]
  rfl

/-- **Files come in as long as there are numbers.** -/
theorem insertFiles_exec (h : s.catalog.Consistent) (hid : s.catalog.store.contains id)
    (hroom : s.catalog.HasRoom files.length) :
    (insertFiles path id files).exec s = (.ok (), s.bring path id files) := by
  induction files generalizing s with
  | nil => rfl
  | cons file files ih =>
    rw [List.length_cons, Nat.add_comm] at hroom
    obtain ⟨next, hnext⟩ := hroom.exists_nextId
    rw [insertFiles_cons_exec h hid hnext, bring_cons s path id file files]
    exact ih (s := s.bring path id [file]) (h.addFile hid) (Catalog.contains_add hid) hroom.add

/-- If the numbers run out, they have all been given out. -/
theorem insertFiles_exhausted (h : s.catalog.Consistent) (hid : s.catalog.store.contains id)
    (hroom : ¬ s.catalog.HasRoom files.length) :
    ∃ n, s.catalog.size + n = EntryId.capacity ∧ n < files.length ∧
      (insertFiles path id files).exec s = (.error .exhausted, s.bring path id (files.take n)) := by
  induction files generalizing s with
  | nil => exact absurd h.size_le hroom
  | cons file files ih =>
    cases hnext : s.catalog.store.nextId? with
    | none =>
      have hfull := EntryId.ofSlot?_eq_none_iff.mp hnext
      have hinsert := Catalog.insert_exec h ⟨file.name, s.naming.spell path, file.stat⟩
        (Catalog.storesParent_some hid)
      rw [hnext, Catalog.add_of_none hnext] at hinsert
      refine ⟨0, h.size_le.antisymm hfull, Nat.succ_pos _, ?_⟩
      rw [insertFiles, exec_bind_ok exec_get]
      exact exec_bind_error (onCatalog_exec hinsert)
    | some next =>
      have hsize : (s.bring path id [file]).catalog.size = s.catalog.size + 1 :=
        Catalog.size_add hnext
      have hroom' : ¬ (s.bring path id [file]).catalog.HasRoom files.length := by
        rw [Catalog.HasRoom, hsize, Nat.add_assoc, Nat.add_comm 1]
        exact hroom
      rw [insertFiles_cons_exec h hid hnext]
      obtain ⟨n, hn, hlt, hexec⟩ := ih (s := s.bring path id [file]) (h.addFile hid)
        (Catalog.contains_add hid) hroom'
      refine ⟨n + 1, ?_, Nat.succ_lt_succ hlt, ?_⟩
      · rw [hsize] at hn
        omega
      · rw [hexec, List.take_succ_cons, bring_cons s path id file (files.take n)]

/-! ## The visit as a whole -/

/-- The state with the directory of a visit. -/
def house (s : Indexing) (path : RelPath) (stat : Stat) (id : EntryId) : Indexing :=
  arrive path { s with catalog := s.catalog.addDirectory s.naming path stat id }

/-- A directory that was stored can be registered. -/
theorem register_stored_exec (h : s.catalog.Consistent) (hrefusal : s.refusal? path = none)
    (stat : Stat) (id : EntryId) : (onCatalog (Catalog.register path.text id)).exec
      { s with
        catalog := s.catalog.add (path.entry s.naming stat) (s.catalog.registry.parent? path) } =
      (.ok (), { s with catalog := s.catalog.addDirectory s.naming path stat id }) := by
  have hnew : path ∉ (s.catalog.add (path.entry s.naming stat)
      (s.catalog.registry.parent? path)).registry.keys := by
    rw [Catalog.registry_add]
    exact not_mem_keys h hrefusal
  have hexec : (Catalog.register path.text id).exec _ = _ := Catalog.register_exec hnew
  rw [Catalog.registry_add] at hexec
  exact onCatalog_exec hexec

/-- A visit to a place below the root. -/
theorem visit_eq (hpath : v.path? = some path) : visit v = do
    let id ← insertDirectory path v.stat
    onCatalog (Catalog.register path.text id)
    modify (arrive path)
    insertFiles path id v.files
    modify fun s => v.subdirectories.foldl (announce path) s
    return id := by
  rw [DirectoryVisit.path?] at hpath
  simp only [visit, hpath]

/-- A visit goes on with its files as soon as its directory is in. -/
theorem visit_exec (h : s.catalog.Consistent) (hpath : v.path? = some path)
    (hrefusal : s.refusal? path = none) (hid : s.catalog.store.nextId? = some id) :
    (visit v).exec s = (do
      insertFiles path id v.files
      modify fun s => v.subdirectories.foldl (announce path) s
      return id : Build Indexing EntryId).exec (s.house path v.stat id) := by
  have hdirectory := insertDirectory_exec h v.stat hrefusal
  have hregister := register_stored_exec h hrefusal v.stat id
  rw [hid] at hdirectory
  rw [visit_eq hpath]
  exact (exec_bind_ok hdirectory).trans
    ((exec_bind_ok hregister).trans (exec_bind_ok (exec_modify _)))

theorem visit_refused {e : IndexError} (hfault : s.fault? v = some e) :
    (visit v).exec s = (.error (.refused e), s) := by
  unfold fault? at hfault
  cases hpath : v.path? with
  | none =>
    rw [hpath] at hfault
    obtain rfl := Option.some.inj hfault
    rw [DirectoryVisit.path?] at hpath
    rw [visit, hpath]
    rfl
  | some path =>
    simp only [hpath] at hfault
    rw [visit_eq hpath]
    exact exec_bind_error (insertDirectory_refused v.stat hfault)

/-- What is entered, without what it announces. -/
theorem bring_house (hid : s.catalog.store.nextId? = some id) :
    (s.house path v.stat id).bring path id v.files =
      { arrive path s with
        catalog := s.catalog.enter s.naming path v
        counts := ⟨s.counts.directories + 1, s.counts.files + v.files.length⟩ } := by
  rw [Catalog.enter_of_some hid]
  rfl

theorem visit_admitted (h : s.catalog.Consistent) (hadmits : s.Admits path v) :
    ∃ id, (visit v).exec s = (.ok id, s.enter path v) := by
  obtain ⟨id, hid⟩ := hadmits.room.exists_nextId
  have hfiles : (insertFiles path id v.files).exec (s.house path v.stat id) = _ :=
    insertFiles_exec (h.addDirectory hid) (Catalog.contains_addDirectory hid)
      hadmits.room.addDirectory
  refine ⟨id, ?_⟩
  rw [visit_exec h hadmits.path?_eq hadmits.refusal?_eq hid, exec_bind_ok hfiles,
    bring_house hid]
  rfl

/-- **What a visit has brought when the numbers run out**: nothing, or as much as a shorter visit
would have brought. -/
def Leaves (s : Indexing) (v : DirectoryVisit) (t : Indexing) : Prop :=
  t = s ∨ ∃ path n, s.Admits path (v.cut n) ∧ t = s.enter path (v.cut n)

theorem visit_exhausted (h : s.catalog.Consistent) (hfault : s.fault? v = none)
    (hroom : ¬ s.catalog.HasRoom v.entryCount) :
    ∃ t, (visit v).exec s = (.error .exhausted, t) ∧ t.catalog.size = EntryId.capacity ∧
      s.Leaves v t := by
  obtain ⟨path, hpath, hrefusal⟩ := fault?_eq_none_iff.mp hfault
  cases hid : s.catalog.store.nextId? with
  | none =>
    have hfull := EntryId.ofSlot?_eq_none_iff.mp hid
    have hdirectory := insertDirectory_exec h v.stat hrefusal
    rw [hid, Catalog.add_of_none hid] at hdirectory
    refine ⟨s, ?_, h.size_le.antisymm hfull, .inl rfl⟩
    rw [visit_eq hpath]
    exact exec_bind_error hdirectory
  | some id =>
    have hsize : (s.house path v.stat id).catalog.size = s.catalog.size + 1 :=
      Catalog.size_add hid
    have hroom' : ¬ (s.house path v.stat id).catalog.HasRoom v.files.length := by
      rw [Catalog.HasRoom, hsize, Nat.add_assoc]
      exact hroom
    obtain ⟨n, hn, hlt, hfiles⟩ := @insertFiles_exhausted (s.house path v.stat id) path id v.files
      (h.addDirectory hid) (Catalog.contains_addDirectory hid) hroom'
    have hcut : (v.cut n).entryCount = 1 + n := by
      rw [DirectoryVisit.entryCount, DirectoryVisit.cut, List.length_take_of_le hlt.le]
    have hcount : s.catalog.size + (v.cut n).entryCount = EntryId.capacity := by
      rw [hcut, ← Nat.add_assoc, ← hsize, hn]
    have hadmits : s.Admits path (v.cut n) := ⟨hpath, hrefusal, hcount.le⟩
    refine ⟨s.enter path (v.cut n), ?_, ?_, .inr ⟨path, n, hadmits, rfl⟩⟩
    · rw [visit_exec h hpath hrefusal hid, exec_bind_error hfiles]
      exact congrArg (Prod.mk _) (bring_house (v := v.cut n) hid)
    · rw [catalog_enter, Catalog.size_enter hadmits.room, hcount]

/-- **What a visit does**: it is refused, or taken in as a whole, or the numbers run out. -/
theorem visit_outcome (h : s.catalog.Consistent) (v : DirectoryVisit) :
    (∃ e, s.fault? v = some e ∧ (visit v).exec s = (.error (.refused e), s)) ∨
      (∃ path id, s.Admits path v ∧ (visit v).exec s = (.ok id, s.enter path v)) ∨
      ∃ t, s.fault? v = none ∧ ¬ s.catalog.HasRoom v.entryCount ∧
        (visit v).exec s = (.error .exhausted, t) ∧ t.catalog.size = EntryId.capacity ∧
        s.Leaves v t := by
  cases hfault : s.fault? v with
  | some e => exact .inl ⟨e, rfl, visit_refused hfault⟩
  | none =>
    by_cases hroom : s.catalog.HasRoom v.entryCount
    · obtain ⟨path, hpath, hrefusal⟩ := fault?_eq_none_iff.mp hfault
      have hadmits : s.Admits path v := ⟨hpath, hrefusal, hroom⟩
      obtain ⟨id, hexec⟩ := visit_admitted h hadmits
      exact .inr (.inl ⟨path, id, hadmits, hexec⟩)
    · obtain ⟨t, hexec, hsize, hleaves⟩ := visit_exhausted h hfault hroom
      exact .inr (.inr ⟨t, rfl, hroom, hexec, hsize, hleaves⟩)

theorem consistent_enter (h : s.catalog.Consistent) : (s.enter path v).catalog.Consistent := by
  rw [catalog_enter]
  exact h.enter

theorem Leaves.consistent {t : Indexing} (h : s.catalog.Consistent) (hleaves : s.Leaves v t) :
    t.catalog.Consistent := by
  rcases hleaves with rfl | ⟨path, n, -, rfl⟩
  · exact h
  · exact consistent_enter h

end Indexing

end TreeQuery
