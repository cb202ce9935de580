import Mathlib.Data.List.Induction
import TreeQuery.Proofs.Catalog.Walks

/-!
# How catalogs are built

A catalog is built in steps: entries are stored on their own, walks begin, and the walk that is
going on takes in visits. `Indexing.build` makes any such steps from an empty catalog, one after the
other, whether they succeed or not.

Each step stores first and looks again later, and still nothing is ever done by halves. A step that
is refused has changed nothing (`perform_cases`), because the parts of a catalog agree after every
history (`consistent_build`). **`build_allOrNothing`** collects what follows, down to the single
actions of a visit, and that a walk goes on after refused visits as if they had not been made. Only
where the numbers run out does a visit stop halfway.
-/

namespace TreeQuery

open Build

/-- One step of building a catalog. -/
inductive BuildStep where
  /-- An entry is stored on its own. -/
  | insert (new : NewEntry) (parent? : Option EntryId)
  /-- The walk that is going on takes in a visit. -/
  | visit (v : DirectoryVisit)
  /-- Another walk begins. -/
  | walk (naming : Naming)

/-! ## One entry -/

namespace Catalog

variable {c : Catalog} {new : NewEntry} {parent? : Option EntryId}

/-- An entry whose parent is not stored is refused before anything is done. -/
theorem insert_refused (h : ¬ c.StoresParent parent?) :
    ∃ e, (insert new parent?).exec c = (.error (.refused e), c) := by
  cases parent? with
  | none => exact absurd storesParent_none h
  | some p =>
    have hp : ¬ c.store.contains p := fun hp => h (storesParent_some hp)
    refine ⟨.missingParent p new.name, ?_⟩
    unfold insert
    rw [exec_bind_ok exec_get]
    simp only [hp]
    exact exec_bind_error (exec_throw _)

/-- A walk that begins changes no more than the absolute root. -/
theorem Consistent.start (h : c.Consistent) (naming : Naming) :
    (Indexing.start c naming).catalog.Consistent := by
  cases naming with
  | relative => exact h
  | absolute root => exact ⟨h.size_eq, h.size_le, h.grown, h.numbered, h.registered⟩

end Catalog

namespace Indexing

variable {s t : Indexing} {e : IndexError}

/-! ## Steps -/

/-- Makes a step. -/
def perform : BuildStep → Build Indexing Unit
  | .insert new parent? => do
    let _ ← onCatalog (Catalog.insert new parent?)
  | .visit v => do
    let _ ← visit v
  | .walk naming => modify fun s => start s.catalog naming

/-- The state after steps, the failed ones included. -/
def build (steps : List BuildStep) : Indexing :=
  steps.foldl (fun s step => ((perform step).exec s).2) (start {} .relative)

/-- **What a step can do**, if it is not refused. -/
inductive Makes (s : Indexing) : BuildStep → Indexing → Prop where
  | insert {new : NewEntry} {parent? : Option EntryId} : s.catalog.StoresParent parent? →
      Makes s (.insert new parent?) { s with catalog := s.catalog.add new parent? }
  | visit {v : DirectoryVisit} {path : RelPath} : s.Admits path v →
      Makes s (.visit v) (s.enter path v)
  | walk {naming : Naming} : Makes s (.walk naming) (start s.catalog naming)

theorem Makes.consistent {step : BuildStep} (h : s.catalog.Consistent) (hmade : Makes s step t) :
    t.catalog.Consistent := by
  cases hmade with
  | insert hparent => exact h.add _ hparent
  | visit => exact consistent_enter h
  | walk => exact h.start _

/-- **A step is refused before anything is done, or is made as a whole.** Where the numbers run out,
nothing is done, or what another step would have done. -/
theorem perform_cases (h : s.catalog.Consistent) (step : BuildStep) :
    (∃ e, (perform step).exec s = (.error (.refused e), s)) ∨
      (∃ t, (perform step).exec s = (.ok (), t) ∧ Makes s step t) ∨
      ∃ t, (perform step).exec s = (.error .exhausted, t) ∧
        (t = s ∨ ∃ other, Makes s other t) := by
  cases step with
  | insert new parent? =>
    by_cases hparent : s.catalog.StoresParent parent?
    · have hinsert := Catalog.insert_exec h new hparent
      cases hid : s.catalog.store.nextId? with
      | some id =>
        rw [hid] at hinsert
        exact .inr (.inl ⟨_, exec_bind_ok (onCatalog_exec hinsert), .insert hparent⟩)
      | none =>
        rw [hid, Catalog.add_of_none hid] at hinsert
        exact .inr (.inr ⟨_, exec_bind_error (onCatalog_exec hinsert), .inl rfl⟩)
    · obtain ⟨e, hinsert⟩ := @Catalog.insert_refused s.catalog new parent? hparent
      exact .inl ⟨e, exec_bind_error (onCatalog_exec hinsert)⟩
  | visit v =>
    rcases visit_outcome h v with
      ⟨e, -, hvisit⟩ | ⟨path, id, hadmits, hvisit⟩ | ⟨t, -, -, hvisit, -, hleaves⟩
    · exact .inl ⟨e, exec_bind_error hvisit⟩
    · exact .inr (.inl ⟨_, exec_bind_ok hvisit, .visit hadmits⟩)
    · refine .inr (.inr ⟨t, exec_bind_error hvisit, ?_⟩)
      rcases hleaves with rfl | ⟨path, n, hadmits, rfl⟩
      · exact .inl rfl
      · exact .inr ⟨_, .visit hadmits⟩
  | walk naming => exact .inr (.inl ⟨_, exec_modify _, .walk⟩)

/-- **What is left after a step**, however it ends: what there was, or what some step has made. -/
theorem perform_makes (h : s.catalog.Consistent) (step : BuildStep) :
    ((perform step).exec s).2 = s ∨ ∃ other, Makes s other ((perform step).exec s).2 := by
  rcases perform_cases h step with ⟨e, hexec⟩ | ⟨t, hexec, hmade⟩ | ⟨t, hexec, hleft⟩
  · exact .inl (congrArg Prod.snd hexec)
  · rw [hexec]
    exact .inr ⟨step, hmade⟩
  · rw [hexec]
    exact hleft

theorem consistent_perform (h : s.catalog.Consistent) (step : BuildStep) :
    ((perform step).exec s).2.catalog.Consistent := by
  rcases perform_makes h step with hsame | ⟨other, hmade⟩
  · rwa [hsame]
  · exact hmade.consistent h

theorem build_concat (steps : List BuildStep) (step : BuildStep) :
    build (steps ++ [step]) = ((perform step).exec (build steps)).2 :=
  List.foldl_append

/-- **The parts of a catalog agree after every history.** -/
theorem consistent_build (steps : List BuildStep) : (build steps).catalog.Consistent := by
  induction steps using List.reverseRecOn with
  | nil => exact start_consistent .relative
  | append_singleton steps step ih =>
    rw [build_concat]
    exact consistent_perform ih step

/-! ## The actions of a visit -/

/-- A directory that is stored was not refused, and has a number. -/
theorem of_insertDirectory (h : s.catalog.Consistent) {path : RelPath} {stat : Stat} {id : EntryId}
    (hstored : (insertDirectory path stat).exec s = (.ok id, t)) :
    s.refusal? path = none ∧ s.catalog.store.nextId? = some id ∧
      t = { s with catalog :=
              s.catalog.add (path.entry s.naming stat) (s.catalog.registry.parent? path) } := by
  cases hrefusal : s.refusal? path with
  | some e => cases (insertDirectory_refused stat hrefusal).symm.trans hstored
  | none =>
    obtain ⟨hresult, rfl⟩ := Prod.mk.inj ((insertDirectory_exec h stat hrefusal).symm.trans hstored)
    cases hid : s.catalog.store.nextId? with
    | none =>
      rw [hid] at hresult
      cases hresult
    | some next =>
      rw [hid] at hresult
      obtain rfl := Except.ok.inj hresult
      exact ⟨rfl, rfl, rfl⟩

/-- Once its directory is stored, a visit meets no obstacle any more, as long as there are
numbers. -/
theorem register_insertFiles_exec (h : s.catalog.Consistent) {path : RelPath} {stat : Stat}
    {id : EntryId} (hstored : (insertDirectory path stat).exec s = (.ok id, t)) :
    ∃ u, (onCatalog (Catalog.register path.text id)).exec t = (.ok (), u) ∧
      ∀ files, u.catalog.size + files.length ≤ EntryId.capacity →
        ∃ w, (insertFiles path id files).exec (arrive path u) = (.ok (), w) := by
  obtain ⟨hrefusal, hid, rfl⟩ := of_insertDirectory h hstored
  refine ⟨{ s with catalog := s.catalog.addDirectory s.naming path stat id }, ?_,
    fun files hroom => ?_⟩
  · exact register_stored_exec h hrefusal stat id
  · exact ⟨_, insertFiles_exec (h.addDirectory hid) (Catalog.contains_addDirectory hid) hroom⟩

/-! ## Going on after refused visits -/

/-- The numbers do not run out in a walk that goes on after refused visits. -/
def GetsThrough (s : Indexing) : List DirectoryVisit → Prop
  | [] => True
  | v :: vs => ((visit v).exec s).1 ≠ .error .exhausted ∧ ((visit v).exec s).2.GetsThrough vs

/-- The visits that are taken in when the refused ones are passed over. -/
def accepted (s : Indexing) : List DirectoryVisit → List DirectoryVisit
  | [] => []
  | v :: vs =>
    match (visit v).exec s with
    | (.ok _, t) => v :: t.accepted vs
    | (.error _, t) => t.accepted vs

/-- **Passing over refused visits is like not making them.** -/
theorem visitAll_accepted (h : s.catalog.Consistent) {vs : List DirectoryVisit}
    (hthrough : s.GetsThrough vs) :
    (visitAll (s.accepted vs)).exec s = (.ok (), s.visitEach vs) := by
  induction vs generalizing s with
  | nil => rfl
  | cons v vs ih =>
    obtain ⟨hnumbers, hrest⟩ := hthrough
    rw [accepted, visitEach, List.foldl_cons]
    rcases visit_outcome h v with
      ⟨e, -, hvisit⟩ | ⟨path, id, hadmits, hvisit⟩ | ⟨t, -, -, hvisit, -, -⟩
    · rw [hvisit] at hrest ⊢
      exact ih h hrest
    · rw [hvisit] at hrest ⊢
      rw [visitAll, exec_bind_ok hvisit]
      exact ih (consistent_enter h) hrest
    · rw [hvisit] at hnumbers
      exact absurd rfl hnumbers

theorem size_le_visitEach (h : s.catalog.Consistent) (vs : List DirectoryVisit) :
    s.catalog.size ≤ (s.visitEach vs).catalog.size := by
  obtain ⟨ws, htaken⟩ := visitEach_taken h vs
  exact htaken.size_le

/-- If there are numbers left in the end, they have not run out. -/
theorem getsThrough_of_size_lt (h : s.catalog.Consistent) {vs : List DirectoryVisit}
    (hsize : (s.visitEach vs).catalog.size < EntryId.capacity) : s.GetsThrough vs := by
  induction vs generalizing s with
  | nil => trivial
  | cons v vs ih =>
    rw [visitEach, List.foldl_cons] at hsize
    rw [GetsThrough]
    rcases visit_outcome h v with
      ⟨e, -, hvisit⟩ | ⟨path, id, hadmits, hvisit⟩ | ⟨t, -, -, hvisit, hfull, hleaves⟩
    · rw [hvisit] at hsize ⊢
      exact ⟨by simp, ih h hsize⟩
    · rw [hvisit] at hsize ⊢
      exact ⟨by simp, ih (consistent_enter h) hsize⟩
    · rw [hvisit] at hsize
      have hle := size_le_visitEach (hleaves.consistent h) vs
      rw [hfull] at hle
      exact absurd hsize hle.not_gt

theorem accepted_sublist (s : Indexing) (vs : List DirectoryVisit) :
    (s.accepted vs).Sublist vs := by
  induction vs generalizing s with
  | nil => exact .slnil
  | cons v vs ih =>
    rw [accepted]
    rcases (visit v).exec s with ⟨_ | _, t⟩
    · exact (ih t).cons v
    · exact (ih t).cons_cons v

/-- **What is left of visits is taken in.** -/
theorem taken_accepted (h : s.catalog.Consistent) {vs : List DirectoryVisit}
    (hthrough : s.GetsThrough vs) : Taken s (s.accepted vs) (s.visitEach vs) := by
  have hexec := visitAll_accepted h hthrough
  rcases visitAll_cases h (s.accepted vs) with
    ⟨t, htaken, hend⟩ | ⟨_, _, _, _, _, _, _, _, _, hend, _⟩
  · rw [(Prod.mk.inj (hexec.symm.trans hend)).2]
    exact htaken
  · cases hexec.symm.trans hend

/-! ## All or nothing -/

/-- **Nothing is done by halves** in a state. -/
structure AllOrNothing (s : Indexing) : Prop where
  size_eq : s.catalog.store.size = s.catalog.closure.size
  size_perform : ∀ step, ((perform step).exec s).2.catalog.store.size =
    ((perform step).exec s).2.catalog.closure.size
  /-- A step that fails leaves everything as it was. -/
  failed : ∀ step e t, (perform step).exec s = (.error (.refused e), t) → t = s
  /-- What is stored below a stored entry, or as a root, can be linked. -/
  linked : ∀ parent? id, (∀ p ∈ parent?, s.catalog.store.contains p) →
    s.catalog.store.nextId? = some id →
    ∃ closure, s.catalog.closure.insert id parent? = .ok closure
  /-- A directory that is stored can be registered, and then its files can be stored. -/
  registered : ∀ path stat id t, (insertDirectory path stat).exec s = (.ok id, t) →
    ∃ u, (onCatalog (Catalog.register path.text id)).exec t = (.ok (), u) ∧
      ∀ files, u.catalog.size + files.length ≤ EntryId.capacity →
        ∃ w, (insertFiles path id files).exec (arrive path u) = (.ok (), w)
  /-- A walk that goes on after refused visits ends as if they had not been made. -/
  accepted : ∀ visits, (s.visitEach visits).catalog.size < EntryId.capacity →
    (visitAll (s.accepted visits)).exec s = (.ok (), s.visitEach visits)

/-- **After every history nothing is done by halves.** -/
theorem build_allOrNothing (steps : List BuildStep) : (build steps).AllOrNothing := by
  have h := consistent_build steps
  exact
    { size_eq := h.size_eq.symm
      size_perform := fun step => (consistent_perform h step).size_eq.symm
      failed := fun step e t hexec => by
        rcases perform_cases h step with ⟨e', hfailed⟩ | ⟨t', hmade, -⟩ | ⟨t', hended, -⟩
        · exact (Prod.mk.inj (hexec.symm.trans hfailed)).2
        · cases hexec.symm.trans hmade
        · cases hexec.symm.trans hended
      linked := fun _ _ hparent hid => ⟨_, h.insert_closure hparent hid⟩
      registered := fun _ _ _ _ => register_insertFiles_exec h
      accepted := fun _ hsize => visitAll_accepted h (getsThrough_of_size_lt h hsize) }

end Indexing

end TreeQuery
