import Mathlib.Data.List.Induction
import TreeQuery.Proofs.Catalog.Histories
import TreeQuery.Proofs.Catalog.Subtrees

/-!
# A catalog only grows

Storing an entry writes to the rows of all entries above it, however old they are. Still nothing
that a catalog has said of its entries changes, apart from what comes behind it. All of this is in
one relation: `Closure.GrowsTo` says that there are more edges, and that they lead up from new
entries, and `Catalog.GrowsTo` that there are also more entries and more directories. Every step of
a history keeps it (`Indexing.growsTo_perform`), a step that fails by changing nothing.

**`build_appendOnly`**: after any history and any further steps, the entries and the edges, what is
above an entry, what is below it, the distances and the relative paths are as they were, with what
is new at the end. The absolute root is not part of this: a walk may set another one.
-/

namespace TreeQuery

/-! ## Edges -/

namespace Closure

variable {c c' c'' : Closure} {id a d r : EntryId} {parent? : Option EntryId}

/-- **A closure that has grown to another one**: all that is new leads up from new entries. -/
structure GrowsTo (c c' : Closure) : Prop where
  size_le : c.size ≤ c'.size
  edges : ∃ added, c'.edges = c.edges ++ added ∧ ∀ e ∈ added, c.size ≤ e.descendant.slot

theorem GrowsTo.refl (c : Closure) : c.GrowsTo c :=
  ⟨Nat.le_refl _, [], (List.append_nil _).symm, fun _ he => nomatch he⟩

theorem GrowsTo.trans (h : c.GrowsTo c') (h' : c'.GrowsTo c'') : c.GrowsTo c'' := by
  obtain ⟨added, hedges, hadded⟩ := h.edges
  obtain ⟨added', hedges', hadded'⟩ := h'.edges
  refine ⟨h.size_le.trans h'.size_le, added ++ added', ?_, fun e he => ?_⟩
  · rw [hedges', hedges, List.append_assoc]
  · rcases List.mem_append.mp he with he | he
    · exact hadded e he
    · exact h.size_le.trans (hadded' e he)

theorem growsTo_insert (hc : c.insert id parent? = .ok c') : c.GrowsTo c' := by
  have hid := slot_of_insert hc
  obtain ⟨-, -, rfl⟩ := insert_eq_ok_iff.mp hc
  obtain ⟨added, hedges, hadded⟩ := c.exists_edges_extend id parent?
  refine ⟨?_, added, hedges, fun e he => ?_⟩
  · rw [size_extend]
    exact Nat.le_succ _
  · rw [hadded e he, hid]

theorem GrowsTo.fits (h : c.GrowsTo c') (hs : c'.Fits) : c.Fits := by
  obtain ⟨added, hedges, -⟩ := h.edges
  have hlength := congrArg List.length hedges
  rw [List.length_append, length_edges, length_edges] at hlength
  exact (Nat.le_add_right _ _).trans (hlength.symm.le.trans hs)

theorem contains_of_mem_subtree (hc : c.Indexed) (hs : c.Fits) {k : Kin} (hk : k ∈ c.subtree r) :
    c.contains k.id := by
  rw [subtree_eq hc hs] at hk
  obtain ⟨e, he, rfl⟩ := List.mem_map.mp hk
  exact (hc.ends e (List.mem_of_mem_filter he)).2

section

variable (h : c.GrowsTo c') (hc : c.Indexed) (hc' : c'.Indexed) (hs : c'.Fits)

include h hc hc' hs

/-- Nothing new is above an entry that is linked. -/
theorem GrowsTo.ancestors_eq (hd : c.contains d) : c'.ancestors d = c.ancestors d := by
  obtain ⟨added, hedges, hadded⟩ := h.edges
  have hnone : added.filter (fun e => e.descendant == d) = [] := by
    refine List.filter_eq_nil_iff.mpr fun e he heq => ?_
    have hle := hadded e he
    rw [beq_iff_eq.mp heq] at hle
    exact absurd (contains_iff.mp hd) (Nat.not_lt.mpr hle)
  rw [Closure.ancestors_eq hc' hs, Closure.ancestors_eq hc (h.fits hs), hedges,
    List.filter_append, hnone, List.append_nil]

theorem GrowsTo.depth?_eq (hd : c.contains d) : c'.depth? a d = c.depth? a d := by
  rw [depth?, depth?, h.ancestors_eq hc hc' hs hd]

/-- What is new below an entry comes behind. -/
theorem GrowsTo.exists_subtree (r : EntryId) :
    ∃ added, c'.subtree r = c.subtree r ++ added ∧ ∀ k ∈ added, c.size ≤ k.id.slot := by
  obtain ⟨added, hedges, hadded⟩ := h.edges
  refine ⟨(added.filter fun e => e.ancestor == r).map fun e => ⟨e.descendant, e.depth⟩, ?_,
    fun k hk => ?_⟩
  · rw [subtree_eq hc' hs, subtree_eq hc (h.fits hs), hedges, List.filter_append, List.map_append]
  · obtain ⟨e, he, rfl⟩ := List.mem_map.mp hk
    exact hadded e (List.mem_of_mem_filter he)

end

end Closure

/-! ## Directories -/

namespace Registry

variable {r r' : Registry} {path : RelPath} {id : EntryId} {text : String}

theorem get?_of_prefix (h : r.directories <+: r'.directories) (hget : r.get? path = some id) :
    r'.get? path = some id := by
  obtain ⟨added, hadded⟩ := h
  rw [get?, ← hadded, List.lookup_append, ← get?, hget, Option.some_or]

/-- A relative text goes on naming the same directory, whatever becomes of the absolute root. -/
theorem resolve?_of_prefix (h : r.directories <+: r'.directories)
    (htext : text.toList.head? ≠ some '/') (hresolve : r.resolve? text = some id) :
    r'.resolve? text = some id := by
  have hplace : r'.place? text = r.place? text := by
    rw [place?, place?, if_neg htext, if_neg htext]
  obtain ⟨path, hpath, hget⟩ := Option.bind_eq_some_iff.mp hresolve
  exact Option.bind_eq_some_iff.mpr ⟨path, hplace.trans hpath, get?_of_prefix h hget⟩

end Registry

/-! ## Catalogs -/

namespace Catalog

variable {c c' c'' : Catalog} {new : NewEntry} {parent? : Option EntryId} {id : EntryId}
  {naming : Naming} {path : RelPath} {v : DirectoryVisit}

/-- **A catalog that has grown to another one.** -/
structure GrowsTo (c c' : Catalog) : Prop where
  store : c.store.toList <+: c'.store.toList
  closure : c.closure.GrowsTo c'.closure
  directories : c.registry.directories <+: c'.registry.directories

theorem GrowsTo.refl (c : Catalog) : c.GrowsTo c :=
  ⟨List.prefix_refl _, .refl _, List.prefix_refl _⟩

theorem GrowsTo.trans (h : c.GrowsTo c') (h' : c'.GrowsTo c'') : c.GrowsTo c'' :=
  ⟨h.store.trans h'.store, h.closure.trans h'.closure, h.directories.trans h'.directories⟩

theorem Consistent.growsTo_add (h : c.Consistent) (new : NewEntry)
    (hparent : c.StoresParent parent?) : c.GrowsTo (c.add new parent?) := by
  cases hid : c.store.nextId? with
  | none =>
    rw [add_of_none hid]
    exact .refl c
  | some id =>
    rw [add_of_some hid]
    refine ⟨?_, Closure.growsTo_insert (h.insert_closure hparent hid), List.prefix_refl _⟩
    rw [EntryStore.toList_append]
    exact List.prefix_append _ _

theorem Consistent.growsTo_addFiles (h : c.Consistent) (hid : c.store.contains id)
    (directory : String) (files : List FileRecord) :
    c.GrowsTo (c.addFiles directory id files) := by
  induction files generalizing c with
  | nil => exact .refl c
  | cons file files ih =>
    have hadd := h.growsTo_add ⟨file.name, directory, file.stat⟩ (storesParent_some hid)
    exact hadd.trans (ih (h.addFile hid) (contains_add hid))

theorem Consistent.growsTo_enter (h : c.Consistent) : c.GrowsTo (c.enter naming path v) := by
  cases hid : c.store.nextId? with
  | none =>
    rw [Catalog.enter, hid]
    exact .refl c
  | some id =>
    have hadd : c.GrowsTo (c.add (path.entry naming v.stat) (c.registry.parent? path)) :=
      h.growsTo_add _ h.storesParent
    have hdirectory : c.GrowsTo (c.addDirectory naming path v.stat id) :=
      ⟨hadd.store, hadd.closure, List.prefix_append _ _⟩
    rw [enter_of_some hid]
    exact hdirectory.trans
      ((h.addDirectory hid).growsTo_addFiles (contains_addDirectory hid) _ _)

theorem growsTo_start (c : Catalog) (naming : Naming) :
    c.GrowsTo (Indexing.start c naming).catalog := by
  cases naming <;> exact ⟨List.prefix_refl _, .refl _, List.prefix_refl _⟩

/-- An old entry has a smaller number than a new one. -/
theorem number_lt_of_size_le {old new : EntryId} (hold : c.store.contains old)
    (hnew : c.store.size ≤ new.slot) : old.number < new.number := by
  rw [EntryId.number_eq, EntryId.number_eq]
  exact Nat.add_lt_add_right ((contains_iff.mp hold).trans_le hnew) 1

theorem GrowsTo.entry?_eq (h : c.GrowsTo c') (hid : c.store.contains id) :
    c'.entry? id = c.entry? id := by
  obtain ⟨added, hadded⟩ := h.store
  have hlt : id.slot < c.store.toList.length := by
    rw [EntryStore.toList, Array.length_toList]
    exact contains_iff.mp hid
  have hget : (c.store.toList ++ added)[id.slot]? = c.store.toList[id.slot]? :=
    List.getElem?_append_left hlt
  rw [hadded, EntryStore.toList, EntryStore.toList, Array.getElem?_toList,
    Array.getElem?_toList] at hget
  exact hget

/-- What is new below an entry comes behind, also with the entries themselves. -/
theorem GrowsTo.exists_subtree (h : c.GrowsTo c') (hc : c.Consistent) (hc' : c'.Consistent)
    (hs : c'.closure.Fits) (id : EntryId) : ∃ added, c'.subtree id = c.subtree id ++ added ∧
      ∀ d ∈ added, c.store.size ≤ d.1.id.slot := by
  obtain ⟨added, hsubtree, hadded⟩ := h.closure.exists_subtree hc.indexed hc'.indexed hs id
  refine ⟨added.filterMap fun k => (c'.entry? k.id).map (·, k.depth), ?_, fun d hd => ?_⟩
  · rw [subtree, hsubtree, List.filterMap_append, subtree]
    congr 1
    refine List.filterMap_congr fun k hk => ?_
    have hcontains := Closure.contains_of_mem_subtree hc.indexed (h.closure.fits hs) hk
    rw [h.entry?_eq (hc.contains_iff.mp hcontains)]
  · obtain ⟨k, hk, hentry⟩ := List.mem_filterMap.mp hd
    obtain ⟨e, he, rfl⟩ := Option.map_eq_some_iff.mp hentry
    rw [(hc'.entry?_eq_some_iff.mp he).2, ← hc.size_eq]
    exact hadded k hk

/-- **What an earlier catalog says stays true**, with all that is new behind it. -/
structure AppendOnly (c c' : Catalog) : Prop where
  entries : c.store.toList <+: c'.store.toList
  edges : c.closure.edges <+: c'.closure.edges
  entry? : ∀ id, c.store.contains id → c'.entry? id = c.entry? id
  ancestors : ∀ id, c.store.contains id → c'.closure.ancestors id = c.closure.ancestors id
  /-- What comes to be below an entry has greater numbers than all there was. -/
  descendants : ∀ id, c.store.contains id → ∃ added,
    c'.closure.subtree id = c.closure.subtree id ++ added ∧
      ∀ k ∈ added, ∀ old, c.store.contains old → old.number < k.id.number
  subtree : ∀ id, c.store.contains id → ∃ added, c'.subtree id = c.subtree id ++ added ∧
    ∀ d ∈ added, ∀ old, c.store.contains old → old.number < d.1.id.number
  depth? : ∀ a d, c.store.contains a → c.store.contains d →
    c'.closure.depth? a d = c.closure.depth? a d
  /-- Only absolute texts may come to name something else. -/
  resolve? : ∀ text id, text.toList.head? ≠ some '/' → c.registry.resolve? text = some id →
    c'.registry.resolve? text = some id

theorem GrowsTo.appendOnly (h : c.GrowsTo c') (hc : c.Consistent) (hc' : c'.Consistent)
    (hs : c'.closure.Fits) : c.AppendOnly c' where
  entries := h.store
  edges := by
    obtain ⟨added, hedges, -⟩ := h.closure.edges
    rw [hedges]
    exact List.prefix_append _ _
  entry? := fun _ hid => h.entry?_eq hid
  ancestors := fun _ hid =>
    h.closure.ancestors_eq hc.indexed hc'.indexed hs (hc.contains_iff.mpr hid)
  descendants := fun id _ => by
    obtain ⟨added, hsubtree, hadded⟩ := h.closure.exists_subtree hc.indexed hc'.indexed hs id
    refine ⟨added, hsubtree, fun k hk old hold => number_lt_of_size_le hold ?_⟩
    rw [← hc.size_eq]
    exact hadded k hk
  subtree := fun id _ => by
    obtain ⟨added, hsubtree, hadded⟩ := h.exists_subtree hc hc' hs id
    exact ⟨added, hsubtree, fun d hd old hold => number_lt_of_size_le hold (hadded d hd)⟩
  depth? := fun _ _ _ hd =>
    h.closure.depth?_eq hc.indexed hc'.indexed hs (hc.contains_iff.mpr hd)
  resolve? := fun _ _ => Registry.resolve?_of_prefix h.directories

end Catalog

/-! ## Histories -/

namespace Indexing

variable {s t : Indexing}

theorem Makes.growsTo {step : BuildStep} (h : s.catalog.Consistent) (hmade : Makes s step t) :
    s.catalog.GrowsTo t.catalog := by
  cases hmade with
  | insert hparent => exact h.growsTo_add _ hparent
  | visit =>
    rw [catalog_enter]
    exact h.growsTo_enter
  | walk => exact Catalog.growsTo_start _ _

/-- **A step lets the catalog grow**, or changes nothing. -/
theorem growsTo_perform (h : s.catalog.Consistent) (step : BuildStep) :
    s.catalog.GrowsTo ((perform step).exec s).2.catalog := by
  rcases perform_makes h step with hsame | ⟨other, hmade⟩
  · rw [hsame]
    exact .refl _
  · exact hmade.growsTo h

theorem growsTo_build (steps more : List BuildStep) :
    (build steps).catalog.GrowsTo (build (steps ++ more)).catalog := by
  induction more using List.reverseRecOn with
  | nil =>
    rw [List.append_nil]
    exact .refl _
  | append_singleton more step ih =>
    rw [← List.append_assoc, build_concat]
    exact ih.trans (growsTo_perform (consistent_build _) step)

/-- **Whatever is done to a catalog, it only grows.** -/
theorem build_appendOnly (steps more : List BuildStep)
    (hs : (build (steps ++ more)).catalog.closure.Fits) :
    (build steps).catalog.AppendOnly (build (steps ++ more)).catalog :=
  (growsTo_build steps more).appendOnly (consistent_build _) (consistent_build _) hs

/-- Two steps are refused, and then another walk goes on below a directory of the first. -/
theorem build_appendOnly_another_walk :
    let steps : List BuildStep :=
      [.walk (.absolute "/data"),
        .visit { directory := ".", stat := .plain .directory 0, files := [⟨"f", .plain .fifo 0⟩] },
        .visit { directory := "a", stat := .plain .directory 0 }]
    let more : List BuildStep :=
      [.visit { directory := "./a", stat := .plain .directory 1 },
        .insert ⟨"g", "a", .plain .regular 2⟩ (some (.ofSlot 7)),
        .walk .relative,
        .visit
          { directory := "a/b", stat := .plain .directory 0,
            files := [⟨"g", .plain .regular 3⟩] }]
    (build (steps ++ more)).catalog.closure.Fits ∧
      (build steps).catalog.closure.subtree (.ofSlot 2) = [⟨.ofSlot 2, 0⟩] ∧
      (build (steps ++ more)).catalog.closure.subtree (.ofSlot 2) =
        [⟨.ofSlot 2, 0⟩, ⟨.ofSlot 3, 1⟩, ⟨.ofSlot 4, 2⟩] ∧
      (build steps).catalog.AppendOnly (build (steps ++ more)).catalog := by
  intro steps more
  have hs : (build (steps ++ more)).catalog.closure.Fits := by
    unfold Closure.Fits
    decide +kernel
  exact ⟨hs, by decide +kernel, by decide +kernel, build_appendOnly steps more hs⟩

end Indexing

end TreeQuery
