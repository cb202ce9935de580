import Mathlib.Data.List.Nodup
import TreeQuery.Database.Comparison
import TreeQuery.Database.Tables
import TreeQuery.Proofs.Catalog.Histories
import TreeQuery.Proofs.Catalog.Subtrees

/-!
# The tables of a catalog

A catalog is loaded row by row, and the database looks at every row before it takes it in. What a
catalog has to be like for this to succeed is `Catalog.Storable`; a catalog that has been built is
(`Catalog.Consistent.storable`), as long as its closure fits. Then the rows of the two tables are
those of the entries and of the edges, in their order (`Storable.load`).

Two things are said of these tables. They follow the rules of the schema (`FollowsRules`), which
only speaks of the tables. And they hold what the catalog holds (`Holds`): a `Fact` is what there is
to say in a column, and the rows say it, those of the tables of entries and edges, and those of a
join of the entries at and below one, each once (`join_eq`). The program joins by keys; the text of
a request compares columns, with the same result (`join_eq_sqlJoin`). **`build_load`** is both.
-/

namespace TreeQuery

open Database

variable {c : Catalog} {t : Tables} {e : Entry} {edge : Edge} {a b r : EntryId} {f : Field}

/-! ## What there is to say -/

/-- What there is to say in a column of a row. -/
inductive Fact where
  | nothing
  | number (n : Nat)
  | text (s : String)

/-- Whether a cell says it. A number has to be there as a whole, not cut off to 64 bits. -/
def Fact.IsSaid : Fact → Value → Prop
  | nothing, v => v = .null
  | number n, v => ∃ k : Int64, v = .integer k ∧ k.toInt = n
  | text s, v => v = .text s

/-- A text that may be missing. -/
def Fact.ofText? (s? : Option String) : Fact := (s?.map text).getD .nothing

/-- What an entry says in the columns of `files`. -/
def Entry.fact (e : Entry) : Field → Fact
  | .fileId => .number e.id.number
  | .fileName => .text e.name
  | .directory => .text e.directory
  | .fullPath => .text e.fullPath
  | .fileType => .ofText? (e.typeCode?.map Char.toString)
  | .fileSize => .number (min e.stat.size.toNat greatestInteger)
  | .accessTime => .text e.stat.accessTime.text
  | .modificationTime => .text e.stat.modificationTime.text
  | .creationTime => .ofText? (e.stat.creationTime.map Timestamp.text)
  | .ownerId => .number e.stat.owner.toNat
  | .groupId => .number e.stat.group.toNat
  | .ancestorId | .descendantId | .depth => .nothing

/-- What an edge says in the columns of `relations`. -/
def Edge.fact (e : Edge) : Field → Fact
  | .ancestorId => .number e.ancestor.number
  | .descendantId => .number e.descendant.number
  | .depth => .number e.depth
  | _ => .nothing

/-- What an entry at a distance below another one says in the columns of both tables. -/
def Entry.factBelow (e : Entry) (root : EntryId) (depth : Nat) (f : Field) : Fact :=
  match f.table with
  | .files => e.fact f
  | .relations => Edge.fact ⟨root, e.id, depth⟩ f

/-! ## Cells -/

theorem toInt_ofNat {n : Nat} (h : n ≤ greatestInteger) : (Int64.ofNat n).toInt = n :=
  Int64.toInt_ofNat_of_lt (Nat.lt_of_le_of_lt h (by decide))

theorem isSaid_number {n : Nat} (h : n ≤ greatestInteger) :
    (Fact.number n).IsSaid (.integer (.ofNat n)) := ⟨_, rfl, toInt_ofNat h⟩

theorem isSaid_ofText? (s? : Option String) : (Fact.ofText? s?).IsSaid (optionalText s?) := by
  cases s? <;> rfl

theorem toNat_le_greatestInteger (n : UInt32) : n.toNat ≤ greatestInteger :=
  n.toNat_lt.le.trans (by decide)

/-- Numbers that are not cut off stay different. -/
theorem EntryId.key_inj (ha : a.number ≤ greatestInteger) (hb : b.number ≤ greatestInteger) :
    a.key = b.key ↔ a = b := by
  refine ⟨fun h => ?_, congrArg _⟩
  have hnumber : (a.number : Int) = b.number := by
    rw [← toInt_ofNat ha, ← toInt_ofNat hb]
    exact congrArg Int64.toInt h
  obtain ⟨n, _⟩ := a
  obtain ⟨m, _⟩ := b
  obtain rfl := Int.ofNat.inj hnumber
  rfl

theorem Entry.isSaid_cell (h : e.id.number ≤ greatestInteger) (hf : f.table = .files) :
    (e.fact f).IsSaid (Table.files.cell e.cells f) := by
  cases f <;> cases hf
  case fileId => exact isSaid_number h
  case fileSize => exact isSaid_number (min_le_right _ _)
  case ownerId => exact isSaid_number (toNat_le_greatestInteger _)
  case groupId => exact isSaid_number (toNat_le_greatestInteger _)
  case fileType => exact isSaid_ofText? _
  case creationTime => exact isSaid_ofText? _
  all_goals rfl

theorem Edge.isSaid_cell (ha : edge.ancestor.number ≤ greatestInteger)
    (hd : edge.descendant.number ≤ greatestInteger) (hdepth : edge.depth ≤ greatestInteger)
    (hf : f.table = .relations) : (edge.fact f).IsSaid (Table.relations.cell edge.cells f) := by
  cases f <;> cases hf
  case ancestorId => exact isSaid_number ha
  case descendantId => exact isSaid_number hd
  case depth => exact isSaid_number hdepth

/-- An entry has a value in every column that must have one. -/
theorem Entry.missing?_cells (e : Entry) : missing? .files e.cells = none := by
  rw [missing?, List.find?_eq_none]
  intro f hf
  cases f <;> first | exact Bool.false_ne_true | exact absurd hf (by decide)

theorem Edge.missing?_cells (e : Edge) : missing? .relations e.cells = none := by
  rw [missing?, List.find?_eq_none]
  intro f hf
  cases f <;> first | exact Bool.false_ne_true | exact absurd hf (by decide)

/-! ## Filling the tables -/

namespace Database.Tables

/-- The row of an entry under its key. -/
def fileRow (e : Entry) : Int64 × List Value := (e.id.key, e.cells)

/-- The row of an edge under its key. -/
def relationRow (e : Edge) : (Int64 × Int64) × List Value :=
  ((e.ancestor.key, e.descendant.key), e.cells)

theorem hasFile_iff {k : Int64} : t.hasFile k ↔ k ∈ t.files.toList.map Prod.fst := by
  rw [hasFile, ← Array.any_toList, List.any_eq_true, List.mem_map]
  simp only [beq_iff_eq]

theorem hasRelation_iff {ends : Int64 × Int64} :
    t.hasRelation ends ↔ ends ∈ t.relations.toList.map Prod.fst := by
  rw [hasRelation, ← Array.any_toList, List.any_eq_true, List.mem_map]
  simp only [beq_iff_eq]

theorem insertFile_cells (h : e.id.key ∉ t.files.toList.map Prod.fst) :
    t.insertFile e.cells = .ok { t with files := t.files.push (fileRow e) } := by
  have hkey : (Table.files.cell e.cells .fileId).integer? = some e.id.key := rfl
  rw [insertFile, e.missing?_cells, hkey]
  exact if_neg (mt hasFile_iff.mp h)

theorem insertRelation_cells
    (h : (edge.ancestor.key, edge.descendant.key) ∉ t.relations.toList.map Prod.fst)
    (ha : t.hasFile edge.ancestor.key) (hd : t.hasFile edge.descendant.key) :
    t.insertRelation edge.cells =
      .ok { t with relations := t.relations.push (relationRow edge) } := by
  have hancestor : (Table.relations.cell edge.cells .ancestorId).integer? =
      some edge.ancestor.key := rfl
  have hdescendant : (Table.relations.cell edge.cells .descendantId).integer? =
      some edge.descendant.key := rfl
  rw [insertRelation, edge.missing?_cells, hancestor, hdescendant]
  simp only [mt hasRelation_iff.mp h, ha, hd, Bool.and_self, if_true, if_false,
    Bool.false_eq_true]
  rfl

/-- Rows of different keys can be put in one after the other, if each of them can be put in. The
rows that are there stay in front, and what a step does not touch (`rest`) stays as it is. -/
theorem foldlM_push {σ α β κ γ : Type} {step : σ → α → Except Fault σ} (rows : σ → List β)
    (rest : σ → γ) (row : α → β) (key : β → κ) {as : List α} {s : σ}
    (hstep : ∀ a ∈ as, ∀ t, rest t = rest s → key (row a) ∉ (rows t).map key →
      ∃ u, step t a = .ok u ∧ rows u = rows t ++ [row a] ∧ rest u = rest t)
    (hkeys : ((rows s).map key ++ (as.map row).map key).Nodup) :
    ∃ t, as.foldlM step s = .ok t ∧ rows t = rows s ++ as.map row ∧ rest t = rest s := by
  induction as generalizing s with
  | nil => exact ⟨s, rfl, (List.append_nil _).symm, rfl⟩
  | cons a as ih =>
    have hnew : key (row a) ∉ (rows s).map key := fun hmem =>
      List.disjoint_of_nodup_append hkeys hmem List.mem_cons_self
    obtain ⟨u, hu, hrows, hrest⟩ := hstep a List.mem_cons_self s rfl hnew
    obtain ⟨t, hfold, hrows', hrest'⟩ := ih
      (fun x hx t ht => hstep x (List.mem_cons_of_mem a hx) t (ht.trans hrest))
      (by rw [hrows, List.map_append, List.append_assoc]; exact hkeys)
    refine ⟨t, ?_, ?_, hrest'.trans hrest⟩
    · rw [List.foldlM_cons, hu]
      exact hfold
    · rw [hrows', hrows, List.append_assoc]
      rfl

end Database.Tables

open Tables

/-! ## Catalogs that can be stored -/

namespace Catalog

/-- **A catalog that the database takes in.** -/
structure Storable (c : Catalog) : Prop where
  ids_le : ∀ e ∈ c.store.toList, e.id.number ≤ greatestInteger
  ids_nodup : (c.store.toList.map Entry.id).Nodup
  stored : ∀ e ∈ c.closure.edges,
    (∃ x ∈ c.store.toList, x.id = e.ancestor) ∧ ∃ x ∈ c.store.toList, x.id = e.descendant
  depths_le : ∀ e ∈ c.closure.edges, e.depth ≤ greatestInteger
  pairs_nodup : (c.closure.edges.map fun e => (e.ancestor, e.descendant)).Nodup

/-- A linked entry is stored. -/
theorem Consistent.exists_entry (h : c.Consistent) (hlinked : c.closure.contains a) :
    ∃ x ∈ c.store.toList, x.id = a := by
  have hmem : a.slot ∈ c.store.toList.map fun e => e.id.slot := by
    rw [h.numbered, ← h.size_eq]
    exact List.mem_range.mpr (Closure.contains_iff.mp hlinked)
  obtain ⟨x, hx, hid⟩ := List.mem_map.mp hmem
  exact ⟨x, hx, EntryId.slot_inj.mp hid⟩

/-- A lineage has no more steps than there are edges. -/
theorem Consistent.depth_le (h : c.Consistent) (hs : c.closure.Fits)
    (he : edge ∈ c.closure.edges) : edge.depth ≤ 2 ^ 32 := by
  obtain ⟨links, hgrown⟩ := h.grown
  obtain ⟨i, hi⟩ := List.mem_iff_getElem?.mp ((Closure.mem_edges_iff hgrown.indexed hs).mp he)
  obtain ⟨hdepth, -⟩ := (hgrown.getElem?_ancestors_iff hs).mp hi
  have hlt := (List.getElem?_eq_some_iff.mp hi).1
  rw [Closure.ancestors_eq hgrown.indexed hs, List.length_map] at hlt
  calc
    edge.depth = i := hdepth
    _ ≤ (c.closure.edges.filter fun x => x.descendant == edge.descendant).length := hlt.le
    _ ≤ c.closure.edges.length := List.length_filter_le _ _
    _ = c.closure.edgeCount := c.closure.length_edges
    _ ≤ 2 ^ 32 := hs

/-- **What has been built can be stored.** -/
theorem Consistent.storable (h : c.Consistent) (hs : c.closure.Fits) : c.Storable := by
  obtain ⟨links, hgrown⟩ := h.grown
  have hle : 2 ^ 32 ≤ greatestInteger := by decide
  refine ⟨fun e he => ?_, ?_, fun e he => ?_, fun e he => (h.depth_le hs he).trans hle,
    hgrown.pairs_nodup hs⟩
  · exact e.id.lt.le.trans hle
  · refine .of_map EntryId.slot ?_
    rw [List.map_map]
    exact h.numbered ▸ List.nodup_range
  · obtain ⟨ha, hd⟩ := hgrown.indexed.ends e he
    exact ⟨h.exists_entry ha, h.exists_entry hd⟩

theorem Storable.ancestor_le (h : c.Storable) (he : edge ∈ c.closure.edges) :
    edge.ancestor.number ≤ greatestInteger := by
  obtain ⟨⟨x, hx, hid⟩, -⟩ := h.stored edge he
  exact hid ▸ h.ids_le x hx

theorem Storable.descendant_le (h : c.Storable) (he : edge ∈ c.closure.edges) :
    edge.descendant.number ≤ greatestInteger := by
  obtain ⟨-, x, hx, hid⟩ := h.stored edge he
  exact hid ▸ h.ids_le x hx

/-- Keys tell entries apart. -/
theorem Storable.keys_nodup (h : c.Storable) :
    (c.store.toList.map fun e => e.id.key).Nodup := by
  refine List.Nodup.map_on (fun x hx y hy hkey => ?_) h.ids_nodup.of_map
  exact List.inj_on_of_nodup_map h.ids_nodup hx hy
    ((EntryId.key_inj (h.ids_le x hx) (h.ids_le y hy)).mp hkey)

/-- Pairs of keys tell edges apart. -/
theorem Storable.pairKeys_nodup (h : c.Storable) :
    (c.closure.edges.map fun e => (e.ancestor.key, e.descendant.key)).Nodup := by
  refine List.Nodup.map_on (fun x hx y hy hkey => ?_) h.pairs_nodup.of_map
  obtain ⟨ha, hd⟩ := Prod.mk.inj hkey
  rw [EntryId.key_inj (h.ancestor_le hx) (h.ancestor_le hy)] at ha
  rw [EntryId.key_inj (h.descendant_le hx) (h.descendant_le hy)] at hd
  exact List.inj_on_of_nodup_map h.pairs_nodup hx hy (Prod.ext ha hd)

/-- **The rows of the tables** are those of the entries and of the edges. -/
structure IsLoaded (c : Catalog) (t : Tables) : Prop where
  files : t.files.toList = c.store.toList.map fileRow
  relations : t.relations.toList = c.closure.edges.map relationRow

theorem Storable.insertFiles (h : c.Storable) : ∃ t : Tables,
    c.store.toList.foldlM (fun (t : Tables) e => t.insertFile e.cells) {} = .ok t ∧
      t.files.toList = c.store.toList.map fileRow ∧ t.relations = #[] := by
  refine foldlM_push (fun t : Tables => t.files.toList) Tables.relations fileRow Prod.fst
    (fun e _ t _ hnew => ⟨_, insertFile_cells hnew, Array.toList_push, rfl⟩) ?_
  rw [List.map_map]
  exact h.keys_nodup

theorem Storable.insertRelations (h : c.Storable)
    (hfiles : t.files.toList = c.store.toList.map fileRow) (hrelations : t.relations = #[]) :
    ∃ t' : Tables,
      c.closure.edges.foldlM (fun (t : Tables) e => t.insertRelation e.cells) t = .ok t' ∧
        t'.relations.toList = c.closure.edges.map relationRow ∧ t'.files = t.files := by
  have hstored : ∀ {s : Tables} {id : EntryId}, s.files = t.files →
      (∃ x ∈ c.store.toList, x.id = id) → s.hasFile id.key := by
    rintro s _ hs ⟨x, hx, rfl⟩
    rw [hasFile_iff, hs, hfiles]
    exact List.mem_map.mpr ⟨fileRow x, List.mem_map_of_mem hx, rfl⟩
  have hfold := @foldlM_push Tables Edge _ _ _ (fun t e => t.insertRelation e.cells)
    (fun t => t.relations.toList) Tables.files relationRow Prod.fst c.closure.edges t
    (fun e he s hs hnew => by
      obtain ⟨ha, hd⟩ := h.stored e he
      exact ⟨_, insertRelation_cells hnew (hstored hs ha) (hstored hs hd), Array.toList_push, rfl⟩)
    (by
      rw [hrelations, List.map_map]
      exact h.pairKeys_nodup)
  rw [hrelations] at hfold
  exact hfold

/-- **Loading succeeds.** -/
theorem Storable.load (h : c.Storable) : ∃ t, c.load = .ok t ∧ c.IsLoaded t := by
  obtain ⟨t, hfold, hfiles, hrelations⟩ := h.insertFiles
  obtain ⟨t', hfold', hrelations', hfiles'⟩ := h.insertRelations hfiles hrelations
  refine ⟨t', ?_, hfiles' ▸ hfiles, hrelations'⟩
  rw [Catalog.load, hfold]
  exact hfold'

end Catalog

/-! ## The rules of the schema -/

/-- Whether a column of a row is equal to a value, which may be that of a column itself. -/
def Row.equals (row : Row) (f : Field) (affinity? : Option Affinity) (v : Value) : Bool :=
  ComparisonRule.equal? { affinity? := Affinity.common (some f.affinity) affinity? } (row.value f)
    v == some true

/-- Whether `files.file_id = relations.descendant_id` and `relations.ancestor_id = ?1` hold of a
row, with the number of an entry for `?1` (`Request.source`). -/
def Row.isSource (row : Row) (root : EntryId) : Bool :=
  row.equals .fileId (some Field.descendantId.affinity) (row.value .descendantId) &&
    row.equals .ancestorId none (.integer root.key)

namespace Database.Tables

/-- The rows of a table. -/
def rows (t : Tables) : Table → List (List Value)
  | .files => t.files.toList.map Prod.snd
  | .relations => t.relations.toList.map Prod.snd

/-- **Tables that follow the rules of the schema.** -/
structure FollowsRules (t : Tables) : Prop where
  /-- Columns that must have a value have one. -/
  filled : ∀ table, ∀ cells ∈ t.rows table, ∀ f ∈ table.columns, f.nullable = false →
    table.cell cells f ≠ .null
  /-- No two rows of `files` have the same number. -/
  filesDistinct : ((t.rows .files).map fun cells => Table.files.cell cells .fileId).Nodup
  /-- No two rows of `relations` have the same two numbers. -/
  relationsDistinct : ((t.rows .relations).map fun cells =>
    (Table.relations.cell cells .ancestorId, Table.relations.cell cells .descendantId)).Nodup
  /-- Both numbers of a row of `relations` are those of files. -/
  referenced : ∀ cells ∈ t.rows .relations, ∀ f ∈ [Field.ancestorId, Field.descendantId],
    ∃ file ∈ t.rows .files, Table.files.cell file .fileId = Table.relations.cell cells f

/-- All pairs of a row of `relations` and a row of `files` that the text of a request lets
through. -/
def sqlJoin (t : Tables) (root : EntryId) : List Row :=
  ((t.rows .relations).flatMap fun relation => (t.rows .files).map fun file =>
    ⟨file, relation⟩).filter fun row => row.isSource root

/-- **Tables that hold what a catalog holds.** -/
structure Holds (t : Tables) (c : Catalog) : Prop where
  entries : List.Forall₂ (fun e cells => ∀ f : Field, f.table = .files →
    (e.fact f).IsSaid (Table.files.cell cells f)) c.store.toList (t.rows .files)
  edges : List.Forall₂ (fun e cells => ∀ f : Field, f.table = .relations →
    (e.fact f).IsSaid (Table.relations.cell cells f)) c.closure.edges (t.rows .relations)
  /-- A query of an entry sees the entries at and below it with their distances, each once. -/
  join : ∀ r : EntryId, r.number ≤ greatestInteger →
    List.Forall₂ (fun d row => ∀ f, (d.1.factBelow r d.2 f).IsSaid (row.value f)) (c.subtree r)
      (t.join r.key)
  /-- That is what the text of a request asks for. -/
  sql : ∀ r : EntryId, t.join r.key = t.sqlJoin r
  once : ∀ r, ((c.subtree r).map fun d => d.1.id).Nodup

theorem rows_files (h : c.IsLoaded t) : t.rows .files = c.store.toList.map Entry.cells := by
  rw [rows, h.files, List.map_map]
  rfl

theorem rows_relations (h : c.IsLoaded t) :
    t.rows .relations = c.closure.edges.map Edge.cells := by
  rw [rows, h.relations, List.map_map]
  rfl

theorem cell_ne_null {table : Table} {cells : List Value} (h : missing? table cells = none)
    (hf : f ∈ table.columns) (hnullable : f.nullable = false) : table.cell cells f ≠ .null := by
  intro hnull
  have hfilled := List.find?_eq_none.mp h f hf
  rw [hnullable, hnull] at hfilled
  exact hfilled rfl

theorem followsRules (hc : c.Storable) (h : c.IsLoaded t) : t.FollowsRules where
  filled := by
    rintro (_ | _) cells hcells f hf hnullable
    · rw [rows_files h] at hcells
      obtain ⟨e, -, rfl⟩ := List.mem_map.mp hcells
      exact cell_ne_null e.missing?_cells hf hnullable
    · rw [rows_relations h] at hcells
      obtain ⟨e, -, rfl⟩ := List.mem_map.mp hcells
      exact cell_ne_null e.missing?_cells hf hnullable
  filesDistinct := by
    rw [rows_files h, List.map_map]
    have hkeys := hc.keys_nodup.map fun (a b : Int64) (hab : Value.integer a = .integer b) =>
      Value.integer.inj hab
    rw [List.map_map] at hkeys
    exact hkeys
  relationsDistinct := by
    rw [rows_relations h, List.map_map]
    have hkeys := hc.pairKeys_nodup.map fun (a b : Int64 × Int64)
      (hab : (Value.integer a.1, Value.integer a.2) = (Value.integer b.1, Value.integer b.2)) =>
        Prod.ext (Value.integer.inj (Prod.mk.inj hab).1) (Value.integer.inj (Prod.mk.inj hab).2)
    rw [List.map_map] at hkeys
    exact hkeys
  referenced := by
    intro cells hcells f hf
    let idValue (id : EntryId) : Value := .integer id.key
    rw [rows_relations h] at hcells
    obtain ⟨e, he, rfl⟩ := List.mem_map.mp hcells
    obtain ⟨⟨a, ha, hancestor⟩, d, hd, hdescendant⟩ := hc.stored e he
    rw [rows_files h]
    simp only [List.mem_cons, List.not_mem_nil, or_false] at hf
    rcases hf with rfl | rfl
    · exact ⟨_, List.mem_map_of_mem ha, congrArg idValue hancestor⟩
    · exact ⟨_, List.mem_map_of_mem hd, congrArg idValue hdescendant⟩

/-! ## Joins -/

theorem equals_integer {row : Row} {m n : Int64} {affinity? : Option Affinity}
    (hvalue : row.value f = .integer m) (hf : f.affinity = .integer) :
    row.equals f affinity? (.integer n) = (m == n) := by
  have hcompare : (compare m n == .eq) = (m == n) := by
    rw [Bool.eq_iff_iff, beq_iff_eq, beq_iff_eq]
    exact Std.LawfulEqOrd.compare_eq_iff_eq
  rw [Row.equals, hvalue, hf, ← hcompare]
  obtain _ | _ | _ := affinity? <;> cases h : compare m n <;>
    simp [ComparisonRule.equal?, ComparisonRule.compare?, ComparisonRule.order,
      ComparisonRule.prepare, Affinity.common, Value.isNull, Value.asNumeric, Value.compare, h]

theorem isSource_eq : Row.isSource ⟨e.cells, edge.cells⟩ r =
    (e.id.key == edge.descendant.key && edge.ancestor.key == r.key) := by
  have hdescendant : Row.value ⟨e.cells, edge.cells⟩ .descendantId =
      .integer edge.descendant.key := rfl
  rw [Row.isSource, hdescendant, equals_integer rfl rfl, equals_integer rfl rfl]

theorem flatMap_filter_eq {α β : Type} (p : α → Bool) (g : α → List β) (l : List α) :
    (l.filter p).flatMap g = l.flatMap fun x => if p x then g x else [] := by
  induction l with
  | nil => rfl
  | cons x l ih => by_cases hx : p x <;> simp [hx, ih]

/-- **A join by keys is the join of the text.** -/
theorem join_eq_sqlJoin (h : c.IsLoaded t) (r : EntryId) : t.join r.key = t.sqlJoin r := by
  rw [join, sqlJoin, rows_files h, rows_relations h, List.filter_flatMap, List.flatMap_map,
    h.relations, flatMap_filter_eq, List.flatMap_map, h.files]
  refine List.flatMap_congr fun edge _ => ?_
  rw [List.map_map, List.filter_map, List.filter_map, List.map_map]
  have hsource : ((fun row : Row => row.isSource r) ∘ (fun file => ⟨file, edge.cells⟩) ∘
      Entry.cells) = fun e => e.id.key == edge.descendant.key && edge.ancestor.key == r.key :=
    funext fun e => isSource_eq
  rw [hsource]
  by_cases hancestor : edge.ancestor.key == r.key
  · simp only [hancestor, Bool.and_true]
    exact if_pos hancestor
  · simp only [hancestor, Bool.and_false, List.filter_false]
    exact if_neg hancestor

/-- The rows of `files` of a number are that of one entry. -/
theorem files_filter (hc : c.Storable) (h : c.IsLoaded t) (he : e ∈ c.store.toList) :
    t.files.toList.filter (fun file => file.1 == e.id.key) = [fileRow e] := by
  have hsame : ∀ x ∈ c.store.toList, ((fileRow x).1 == e.id.key) = (x == e) := by
    intro x hx
    rw [Bool.eq_iff_iff, beq_iff_eq, beq_iff_eq]
    constructor
    · intro hkey
      exact List.inj_on_of_nodup_map hc.keys_nodup hx he hkey
    · rintro rfl
      rfl
  calc
    _ = (c.store.toList.filter fun x => (fileRow x).1 == e.id.key).map fileRow := by
      rw [h.files, List.filter_map]
      rfl
    _ = (c.store.toList.filter fun x => x == e).map fileRow := by
      rw [List.filter_congr hsame]
    _ = [fileRow e] := by
      rw [List.filter_beq, List.count_eq_one_of_mem hc.ids_nodup.of_map he]
      rfl

/-- The rows of `relations` that lead down from a number are those of the edges that do. -/
theorem relations_filter (hc : c.Storable) (h : c.IsLoaded t) (hr : r.number ≤ greatestInteger) :
    t.relations.toList.filter (fun relation => relation.1.1 == r.key) =
      (c.closure.edges.filter fun e => e.ancestor == r).map relationRow := by
  have hsame : ∀ x ∈ c.closure.edges, ((relationRow x).1.1 == r.key) = (x.ancestor == r) := by
    intro x hx
    rw [Bool.eq_iff_iff, beq_iff_eq, beq_iff_eq]
    exact EntryId.key_inj (hc.ancestor_le hx) hr
  rw [h.relations, List.filter_map, ← List.filter_congr hsame]
  rfl

/-- **A join is a subtree.** -/
theorem join_eq (hc : c.Consistent) (hs : c.closure.Fits) (h : c.IsLoaded t)
    (hr : r.number ≤ greatestInteger) : t.join r.key =
      (c.subtree r).map fun d => ⟨d.1.cells, Edge.cells ⟨r, d.1.id, d.2⟩⟩ := by
  have hstorable := hc.storable hs
  obtain ⟨links, hgrown⟩ := hc.grown
  rw [join, relations_filter hstorable h hr, List.flatMap_map, Catalog.subtree,
    Closure.subtree_eq hgrown.indexed hs, List.filterMap_map, List.map_filterMap,
    List.filterMap_eq_flatMap_toList]
  refine List.flatMap_congr fun edge hedge => ?_
  obtain ⟨hmem, hancestor⟩ := List.mem_filter.mp hedge
  obtain rfl : edge.ancestor = r := beq_iff_eq.mp hancestor
  -- the edge leads to one entry
  obtain ⟨-, e, he, hid⟩ := hstorable.stored edge hmem
  have hfilter := files_filter hstorable h he
  rw [hid] at hfilter
  have hentry : c.entry? edge.descendant = some e := hc.entry?_eq_some_iff.mpr ⟨he, hid⟩
  obtain ⟨ancestor, descendant, depth⟩ := edge
  subst hid
  simp only [relationRow, Function.comp_apply] at hfilter ⊢
  rw [hfilter, hentry]
  rfl

/-- An edge leads to what is in a subtree. -/
theorem edge_mem_of_mem_subtree (hc : c.Consistent) (hs : c.closure.Fits) {k : Nat}
    (h : (e, k) ∈ c.subtree r) : e ∈ c.store.toList ∧ ⟨r, e.id, k⟩ ∈ c.closure.edges := by
  obtain ⟨links, hgrown⟩ := hc.grown
  obtain ⟨he, hdepth⟩ := (hc.mem_subtree_iff hs).mp h
  exact ⟨he, (Closure.mem_edges_iff hgrown.indexed hs).mpr
    ((hgrown.depth?_eq_some_iff hs).mp hdepth)⟩

theorem isSaid_join (hc : c.Consistent) (hs : c.closure.Fits) {k : Nat}
    (h : (e, k) ∈ c.subtree r) (f : Field) :
    (e.factBelow r k f).IsSaid (Row.value ⟨e.cells, Edge.cells ⟨r, e.id, k⟩⟩ f) := by
  have hstorable := hc.storable hs
  obtain ⟨he, hedge⟩ := edge_mem_of_mem_subtree hc hs h
  unfold Entry.factBelow Row.value
  cases hf : f.table with
  | files => exact e.isSaid_cell (hstorable.ids_le e he) hf
  | relations =>
    exact Edge.isSaid_cell (hstorable.ancestor_le hedge) (hstorable.descendant_le hedge)
      (hstorable.depths_le _ hedge) hf

theorem holds (hc : c.Consistent) (hs : c.closure.Fits) (h : c.IsLoaded t) : t.Holds c where
  entries := by
    rw [rows_files h, List.forall₂_map_right_iff, List.forall₂_same]
    exact fun e he f hf => e.isSaid_cell ((hc.storable hs).ids_le e he) hf
  edges := by
    rw [rows_relations h, List.forall₂_map_right_iff, List.forall₂_same]
    exact fun e he f hf => e.isSaid_cell ((hc.storable hs).ancestor_le he)
      ((hc.storable hs).descendant_le he) ((hc.storable hs).depths_le e he) hf
  join := by
    intro r hr
    rw [join_eq hc hs h hr, List.forall₂_map_right_iff, List.forall₂_same]
    exact fun d hd => isSaid_join hc hs hd
  sql := join_eq_sqlJoin h
  once := hc.nodup_subtree hs

end Database.Tables

/-- **What has been built can be queried.** Loading it succeeds, and the tables are right. -/
theorem Indexing.build_load (steps : List BuildStep) (hs : (build steps).catalog.closure.Fits) :
    ∃ t, (build steps).catalog.load = .ok t ∧ t.FollowsRules ∧ t.Holds (build steps).catalog := by
  have h := consistent_build steps
  obtain ⟨t, hload, hloaded⟩ := (h.storable hs).load
  exact ⟨t, hload, followsRules (h.storable hs) hloaded, holds h hs hloaded⟩

/-- A size does not fit into a cell, a mode says no kind, a visit and an entry are refused, and an
entry stands apart from the walk. -/
theorem Indexing.build_load_mixed :
    let top : DirectoryVisit := { directory := ".", stat := .plain .directory 0, files :=
      [⟨"f", .plain .regular 0xFFFFFFFFFFFFFFFF⟩, ⟨"odd", ⟨0, 0, .epoch, .epoch, none, 0, 0⟩⟩] }
    let below : DirectoryVisit :=
      { directory := "a", stat := .plain .directory 0, files := [⟨"g", .plain .regular 1⟩] }
    let lost : DirectoryVisit := { directory := "b/c", stat := .plain .directory 0 }
    let steps : List BuildStep :=
      [.walk (.absolute "/srv/"), .visit top, .visit lost, .visit below,
        .insert ⟨"x", "a", .plain .symlink 2⟩ (some (.ofSlot 9)),
        .insert ⟨"y", "elsewhere", .plain .fifo 3⟩ none]
    (build steps).catalog.closure.Fits ∧
      ((build steps).catalog.subtree (.ofSlot 3)).map (fun d => (d.1.name, d.2)) =
        [("a", 0), ("g", 1)] ∧
      ∃ t, (build steps).catalog.load = .ok t ∧ t.FollowsRules ∧
        t.Holds (build steps).catalog := by
  intro top below lost steps
  have hs : (build steps).catalog.closure.Fits := by
    unfold Closure.Fits
    decide +kernel
  exact ⟨hs, by decide +kernel, build_load steps hs⟩

end TreeQuery
