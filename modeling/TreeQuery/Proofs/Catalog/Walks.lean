import Mathlib.Data.List.Nodup
import Mathlib.Data.List.Induction
import TreeQuery.Proofs.Catalog.Visiting

/-!
# Which walks are taken in

`Indexing.Taken s₀ vs s` says that the visits `vs` lead from `s₀` to `s`, each of them taken in. It
is what a run of `visitAll` comes to, up to the first visit that is not taken in (`visitAll_cases`),
and what is left of any visits when the refused ones are passed over (`visitEach_taken`). What one
visit preserves is so carried over to walks by induction on `Taken`.

**`takeIn_outcome`**: an empty catalog takes in a list of visits exactly if their paths are in the
order of a walk (`InWalkOrder`) and there are as many numbers as entries, conditions on the list
alone. Otherwise it stops: at the first visit that breaks this order, in the state in which the
visits before have left it, or where the numbers run out.
-/

namespace TreeQuery

open Build

namespace Indexing

variable {s s₀ t : Indexing} {v : DirectoryVisit} {vs ws : List DirectoryVisit} {path : RelPath}
  {e : IndexError} {halt : Halt}

/-! ## Runs -/

/-- **What visits lead to**, if each of them is taken in. -/
inductive Taken (s₀ : Indexing) : List DirectoryVisit → Indexing → Prop where
  | nil : Taken s₀ [] s₀
  | visit {vs : List DirectoryVisit} {s : Indexing} {v : DirectoryVisit} {path : RelPath} :
      Taken s₀ vs s → s.Admits path v → Taken s₀ (vs ++ [v]) (s.enter path v)

theorem Taken.cons (hadmits : s₀.Admits path v) (h : Taken (s₀.enter path v) vs s) :
    Taken s₀ (v :: vs) s := by
  induction h with
  | nil => exact Taken.nil.visit hadmits
  | visit _ hnext ih => exact ih.visit hnext

theorem Taken.consistent (h₀ : s₀.catalog.Consistent) (h : Taken s₀ vs s) :
    s.catalog.Consistent := by
  induction h with
  | nil => exact h₀
  | visit _ _ ih => exact consistent_enter ih

theorem Taken.naming_eq (h : Taken s₀ vs s) : s.naming = s₀.naming := by
  induction h with
  | nil => rfl
  | visit _ _ ih => rw [naming_enter, ih]

theorem Taken.size_le (h : Taken s₀ vs s) : s₀.catalog.size ≤ s.catalog.size := by
  induction h with
  | nil => exact le_rfl
  | visit _ hadmits ih =>
    rw [catalog_enter, Catalog.size_enter hadmits.room]
    exact ih.trans (Nat.le_add_right _ _)

/-- **Why a run stops** at a visit. -/
inductive Stops (s : Indexing) (v : DirectoryVisit) : Halt → Prop where
  | refused {e : IndexError} : s.fault? v = some e → Stops s v (.refused e)
  | exhausted : s.fault? v = none → ¬ s.catalog.HasRoom v.entryCount → Stops s v .exhausted

/-- **How a run ends.** A visit that is refused leaves nothing behind. -/
theorem visitAll_cases (h₀ : s₀.catalog.Consistent) (vs : List DirectoryVisit) :
    (∃ s, Taken s₀ vs s ∧ (visitAll vs).exec s₀ = (.ok (), s)) ∨
      ∃ before v after s halt t, vs = before ++ v :: after ∧ Taken s₀ before s ∧
        s.Stops v halt ∧ (visitAll vs).exec s₀ = (.error halt, t) ∧
        (halt = .exhausted ∨ t = s) := by
  induction vs generalizing s₀ with
  | nil => exact .inl ⟨s₀, .nil, rfl⟩
  | cons v vs ih =>
    rw [visitAll]
    rcases visit_outcome h₀ v with
      ⟨e, hfault, hvisit⟩ | ⟨path, id, hadmits, hvisit⟩ | ⟨t, hfault, hroom, hvisit, -, -⟩
    · exact .inr ⟨[], v, vs, s₀, _, s₀, rfl, .nil, .refused hfault, exec_bind_error hvisit,
        .inr rfl⟩
    · rw [exec_bind_ok hvisit]
      rcases ih (consistent_enter h₀) with
        ⟨s, htaken, hexec⟩ | ⟨before, w, after, s, halt, t, rfl, htaken, hstops, hexec, hleft⟩
      · exact .inl ⟨s, .cons hadmits htaken, hexec⟩
      · exact .inr ⟨v :: before, w, after, s, halt, t, rfl, .cons hadmits htaken, hstops, hexec,
          hleft⟩
    · exact .inr ⟨[], v, vs, s₀, _, t, rfl, .nil, .exhausted hfault hroom,
        exec_bind_error hvisit, .inl rfl⟩

theorem visitAll_concat (h : (visitAll vs).exec s₀ = (.ok (), s)) :
    (visitAll (vs ++ [v])).exec s₀ = (visitAll [v]).exec s := by
  induction vs generalizing s₀ with
  | nil =>
    obtain rfl := (Prod.mk.inj h).2
    rfl
  | cons w vs ih =>
    rw [visitAll, exec_bind] at h
    rw [List.cons_append, visitAll, exec_bind]
    rcases hvisit : (visit w).exec s₀ with ⟨_ | _, t⟩
    · rw [hvisit] at h
      cases h
    · rw [hvisit] at h
      exact ih h

theorem Taken.exec (h₀ : s₀.catalog.Consistent) (h : Taken s₀ vs s) :
    (visitAll vs).exec s₀ = (.ok (), s) := by
  induction h with
  | nil => rfl
  | visit htaken hadmits ih =>
    obtain ⟨id, hvisit⟩ := visit_admitted (htaken.consistent h₀) hadmits
    rw [visitAll_concat ih, visitAll, exec_bind_ok hvisit]
    rfl

/-- The state after visits of which the refused ones are passed over. -/
def visitEach (s : Indexing) (vs : List DirectoryVisit) : Indexing :=
  vs.foldl (fun s v => ((visit v).exec s).2) s

/-- Refused visits leave nothing behind, and what is left of a visit when the numbers run out could
have been one of its own. -/
theorem visitEach_taken (h₀ : s₀.catalog.Consistent) (vs : List DirectoryVisit) :
    ∃ ws, Taken s₀ ws (s₀.visitEach vs) := by
  induction vs generalizing s₀ with
  | nil => exact ⟨[], .nil⟩
  | cons v vs ih =>
    rw [visitEach, List.foldl_cons]
    rcases visit_outcome h₀ v with
      ⟨e, -, hvisit⟩ | ⟨path, id, hadmits, hvisit⟩ | ⟨t, -, -, hvisit, -, hleaves⟩
    · rw [hvisit]
      exact ih h₀
    · rw [hvisit]
      obtain ⟨ws, htaken⟩ := ih (consistent_enter h₀)
      exact ⟨v :: ws, .cons hadmits htaken⟩
    · rw [hvisit]
      obtain ⟨ws, htaken⟩ := ih (hleaves.consistent h₀)
      rcases hleaves with rfl | ⟨path, n, hadmits, rfl⟩
      · exact ⟨ws, htaken⟩
      · exact ⟨_, .cons hadmits htaken⟩

/-- When the numbers run out they have all been given out, to what visits have brought. -/
theorem taken_of_exhausted (h₀ : s₀.catalog.Consistent)
    (hexec : (visitAll vs).exec s₀ = (.error .exhausted, t)) :
    t.catalog.size = EntryId.capacity ∧ ∃ ws, Taken s₀ ws t := by
  induction vs generalizing s₀ with
  | nil => cases hexec
  | cons v vs ih =>
    rw [visitAll] at hexec
    rcases visit_outcome h₀ v with
      ⟨e, -, hvisit⟩ | ⟨path, id, hadmits, hvisit⟩ | ⟨u, -, -, hvisit, hfull, hleaves⟩
    · cases (exec_bind_error hvisit).symm.trans hexec
    · rw [exec_bind_ok hvisit] at hexec
      obtain ⟨hfull, ws, htaken⟩ := ih (consistent_enter h₀) hexec
      exact ⟨hfull, _, .cons hadmits htaken⟩
    · obtain ⟨-, rfl⟩ := Prod.mk.inj ((exec_bind_error hvisit).symm.trans hexec)
      refine ⟨hfull, ?_⟩
      rcases hleaves with rfl | ⟨path, n, hadmits, rfl⟩
      · exact ⟨_, .nil⟩
      · exact ⟨_, Taken.nil.visit hadmits⟩

/-! ## The start of a walk -/

theorem start_catalog (naming : Naming) : ∃ r : Registry, r.directories = [] ∧
    (start {} naming).catalog = { registry := r } := by
  cases naming with
  | relative => exact ⟨{}, rfl, rfl⟩
  | absolute root => exact ⟨Registry.setRoot {} root, rfl, rfl⟩

theorem start_naming (naming : Naming) : (start {} naming).naming = naming := by
  cases naming <;> rfl

theorem start_consistent (naming : Naming) : (start {} naming).catalog.Consistent := by
  obtain ⟨r, hr, hcatalog⟩ := start_catalog naming
  rw [hcatalog]
  exact Catalog.empty_consistent r hr

theorem takeIn_eq (naming : Naming) (vs : List DirectoryVisit) :
    takeIn {} naming vs = (visitAll vs).exec (start {} naming) := rfl

/-- What an empty catalog takes in leads to the state that is left. -/
theorem taken_of_takeIn {naming : Naming} (h : (takeIn {} naming vs).1 = .ok ()) :
    Taken (start {} naming) vs (takeIn {} naming vs).2 := by
  rw [takeIn_eq] at h ⊢
  rcases visitAll_cases (start_consistent naming) vs with
    ⟨s, htaken, hexec⟩ | ⟨_, _, _, _, _, _, _, _, _, hexec, _⟩
  · rw [hexec]
    exact htaken
  · rw [hexec] at h
    cases h

/-! ## The order of a walk -/

/-- **Paths in the order of a walk**: the root first, none twice, and every other one after the
directory that holds it. -/
structure InWalkOrder (paths : List RelPath) : Prop where
  rootFirst : ∀ p ∈ paths.head?, p = .root
  distinct : paths.Nodup
  parentFirst : ∀ before p after, paths = before ++ p :: after → before ≠ [] →
    ∃ d ∈ p.split?, d.1 ∈ before

/-- What may come next in a walk. -/
def Follows (paths : List RelPath) (p : RelPath) : Prop :=
  if paths = [] then p = .root else p ∉ paths ∧ ∃ d ∈ p.split?, d.1 ∈ paths

theorem inWalkOrder_nil : InWalkOrder [] := by
  refine ⟨fun _ hp => (nomatch hp), .nil, fun before p after hsplit _ => ?_⟩
  cases before <;> cases hsplit

/-- A split of a list is one before its last element, or at it. -/
theorem append_cons_eq_concat_iff {α : Type} {before after xs : List α} {a x : α} :
    before ++ a :: after = xs ++ [x] ↔ after = [] ∧ before = xs ∧ a = x ∨
      ∃ rest, after = rest ++ [x] ∧ before ++ a :: rest = xs := by
  constructor
  · intro h
    rcases List.eq_nil_or_concat' after with rfl | ⟨rest, y, rfl⟩
    · obtain ⟨hbefore, hlast⟩ := List.append_inj' h rfl
      exact .inl ⟨rfl, hbefore, (List.cons.inj hlast).1⟩
    · rw [← List.cons_append, ← List.append_assoc] at h
      obtain ⟨hfront, hlast⟩ := List.append_inj' h rfl
      exact .inr ⟨rest, by rw [hlast], hfront⟩
  · rintro (⟨rfl, rfl, rfl⟩ | ⟨rest, rfl, rfl⟩)
    · rfl
    · rw [List.append_assoc, List.cons_append]

theorem inWalkOrder_concat {paths : List RelPath} {p : RelPath} :
    InWalkOrder (paths ++ [p]) ↔ InWalkOrder paths ∧ Follows paths p := by
  unfold Follows
  constructor
  · rintro ⟨hroot, hnodup, hparent⟩
    rw [← List.concat_eq_append, List.nodup_concat] at hnodup
    obtain ⟨hnot, hpaths⟩ := hnodup
    refine ⟨⟨?_, hpaths, ?_⟩, ?_⟩
    · intro q hq
      exact hroot q (List.mem_head?_append_of_mem_head? hq)
    · rintro before q after rfl hbefore
      exact hparent before q (after ++ [p]) (by simp) hbefore
    · split
      · rename_i hnil
        subst hnil
        exact hroot p rfl
      · rename_i hne
        exact ⟨hnot, hparent paths p [] rfl hne⟩
  · rintro ⟨⟨hroot, hnodup, hparent⟩, hfollows⟩
    refine ⟨fun q hq => ?_, ?_, fun before q after hsplit hbefore => ?_⟩
    · by_cases hne : paths = []
      · rw [if_pos hne] at hfollows
        rw [hne] at hq
        exact (Option.some.inj hq).symm.trans hfollows
      · rw [List.head?_append_of_ne_nil _ hne] at hq
        exact hroot q hq
    · rw [← List.concat_eq_append, List.nodup_concat]
      refine ⟨?_, hnodup⟩
      split at hfollows
      · simp [*]
      · exact hfollows.1
    · rcases append_cons_eq_concat_iff.mp hsplit.symm with ⟨-, rfl, rfl⟩ | ⟨rest, -, hpaths⟩
      · rw [if_neg hbefore] at hfollows
        exact hfollows.2
      · exact hparent before q rest hpaths.symm hbefore

/-- The visits of a walk: their paths, however they are spelled, are in order. -/
def IsWalk (vs : List DirectoryVisit) : Prop :=
  ∃ paths : List RelPath, vs.map DirectoryVisit.path? = paths.map some ∧ InWalkOrder paths

theorem map_some_inj {paths qs : List RelPath} (h : paths.map some = qs.map some) : paths = qs :=
  List.map_injective_iff.mpr (Option.some_injective _) h

theorem isWalk_concat {paths : List RelPath} (h : vs.map DirectoryVisit.path? = paths.map some) :
    IsWalk (vs ++ [v]) ↔ InWalkOrder paths ∧ ∃ p, v.path? = some p ∧ Follows paths p := by
  constructor
  · rintro ⟨qs, hqs, hwalk⟩
    rw [List.map_append, h, List.map_singleton] at hqs
    obtain ⟨as, bs, rfl, has, hbs⟩ := List.map_eq_append_iff.mp hqs.symm
    obtain ⟨p, rfl, hp⟩ := List.map_eq_singleton_iff.mp hbs
    obtain rfl := map_some_inj has
    obtain ⟨hwalk, hfollows⟩ := inWalkOrder_concat.mp hwalk
    exact ⟨hwalk, p, hp.symm, hfollows⟩
  · rintro ⟨hwalk, p, hp, hfollows⟩
    refine ⟨paths ++ [p], ?_, inWalkOrder_concat.mpr ⟨hwalk, hfollows⟩⟩
    rw [List.map_append, List.map_append, h, List.map_singleton, hp, List.map_singleton]

/-- A part of a walk from its start is a walk. -/
theorem IsWalk.of_append (h : IsWalk (vs ++ ws)) : IsWalk vs := by
  induction ws using List.reverseRecOn with
  | nil =>
    rw [List.append_nil] at h
    exact h
  | append_singleton ws w ih =>
    rw [← List.append_assoc] at h
    have hwalk := h
    obtain ⟨paths, hpaths, -⟩ := h
    rw [List.map_append] at hpaths
    obtain ⟨as, _, -, has, -⟩ := List.map_eq_append_iff.mp hpaths.symm
    exact ih ⟨as, has.symm, ((isWalk_concat has.symm).mp hwalk).1⟩

/-! ## What a walk leaves behind -/

/-- **The state after a walk.** -/
structure Entered (vs : List DirectoryVisit) (s : Indexing) : Prop where
  paths : vs.map DirectoryVisit.path? = s.catalog.registry.keys.map some
  directories : s.counts.directories = vs.length
  files : s.counts.files = (vs.map fun v => v.files.length).sum
  size : s.catalog.size = s.counts.directories + s.counts.files

theorem entered_start (naming : Naming) : Entered [] (start {} naming) := by
  obtain ⟨r, hr, hcatalog⟩ := start_catalog naming
  have hcounts : (start {} naming).counts = {} := by
    cases naming <;> rfl
  refine ⟨?_, by rw [hcounts]; rfl, by rw [hcounts]; rfl, by rw [hcatalog, hcounts]; rfl⟩
  rw [hcatalog, Registry.keys, hr]
  rfl

theorem Entered.enter (h : Entered vs s) (hadmits : s.Admits path v) :
    Entered (vs ++ [v]) (s.enter path v) where
  paths := by
    rw [catalog_enter, Catalog.keys_enter hadmits.room, List.map_append, List.map_append,
      h.paths, List.map_singleton, hadmits.path?_eq, List.map_singleton]
  directories := by
    rw [counts_enter, List.length_append, h.directories, List.length_singleton]
  files := by
    rw [counts_enter, List.map_append, List.sum_append, h.files, List.map_singleton,
      List.sum_singleton]
  size := by
    rw [catalog_enter, Catalog.size_enter hadmits.room, counts_enter, h.size]
    exact Nat.add_add_add_comm _ _ _ _

theorem Taken.entered {naming : Naming} (h : Taken (start {} naming) vs s) : Entered vs s := by
  induction h with
  | nil => exact entered_start naming
  | visit _ hadmits ih => exact ih.enter hadmits

/-- How many entries visits bring. -/
def entryCount (vs : List DirectoryVisit) : Nat := (vs.map DirectoryVisit.entryCount).sum

theorem entryCount_append : entryCount (vs ++ ws) = entryCount vs + entryCount ws := by
  rw [entryCount, List.map_append, List.sum_append, entryCount, entryCount]

theorem entryCount_singleton : entryCount [v] = v.entryCount := Nat.add_zero _

theorem Entered.size_eq (h : Entered vs s) : s.catalog.size = entryCount vs := by
  rw [h.size, h.directories, h.files]
  clear h
  induction vs with
  | nil => rfl
  | cons v vs ih =>
    have hcons : entryCount (v :: vs) = v.entryCount + entryCount vs := rfl
    rw [hcons, ← ih, List.map_cons, List.sum_cons, List.length_cons, DirectoryVisit.entryCount]
    omega

theorem Entered.length_keys (h : Entered vs s) : s.catalog.registry.keys.length = vs.length := by
  have hlength := congrArg List.length h.paths
  rw [List.length_map, List.length_map] at hlength
  exact hlength.symm

theorem Entered.size_eq_zero_iff (h : Entered vs s) :
    s.catalog.size = 0 ↔ s.catalog.registry.keys = [] := by
  have hkeys := h.length_keys
  rw [h.size, h.directories, h.files]
  constructor
  · intro hsize
    rw [← List.length_eq_zero_iff, hkeys]
    omega
  · intro hnil
    rw [hnil, List.length_nil] at hkeys
    obtain rfl := List.length_eq_zero_iff.mp hkeys.symm
    rfl

/-- A directory is taken in exactly if it may come next. -/
theorem Entered.refusal?_eq_none_iff (h : Entered vs s) :
    s.refusal? path = none ↔ Follows s.catalog.registry.keys path := by
  unfold refusal? Follows
  cases hsplit : path.split? with
  | none =>
    have hroot := RelPath.split?_eq_none_iff.mp hsplit
    have hsize := h.size_eq_zero_iff
    by_cases hkeys : s.catalog.registry.keys = [] <;> simp [hkeys, hroot, hsize]
  | some d =>
    have hroot : path ≠ .root := by
      rintro rfl
      cases hsplit
    by_cases hkeys : s.catalog.registry.keys = []
    · simp [hkeys, hroot]
    · by_cases hpath : path ∈ s.catalog.registry.keys <;> simp [hkeys, hpath]

theorem Taken.inWalkOrder {naming : Naming} (h : Taken (start {} naming) vs s) :
    InWalkOrder s.catalog.registry.keys := by
  induction h with
  | nil =>
    have hkeys := List.map_eq_nil_iff.mp (entered_start naming).paths.symm
    rw [hkeys]
    exact inWalkOrder_nil
  | visit htaken hadmits ih =>
    rw [catalog_enter, Catalog.keys_enter hadmits.room]
    exact inWalkOrder_concat.mpr
      ⟨ih, htaken.entered.refusal?_eq_none_iff.mp hadmits.refusal?_eq⟩

theorem Taken.isWalk {naming : Naming} (h : Taken (start {} naming) vs s) : IsWalk vs :=
  ⟨_, h.entered.paths, h.inWalkOrder⟩

/-- There is a number for every entry of visits that are taken in. -/
theorem Taken.entryCount_le {naming : Naming} (h : Taken (start {} naming) vs s) :
    entryCount vs ≤ EntryId.capacity := by
  rw [← h.entered.size_eq]
  exact (h.consistent (start_consistent naming)).size_le

/-- A walk is taken in, if there are enough numbers. -/
theorem IsWalk.taken (naming : Naming) (h : IsWalk vs) (hcount : entryCount vs ≤ EntryId.capacity) :
    ∃ s, Taken (start {} naming) vs s := by
  induction vs using List.reverseRecOn with
  | nil => exact ⟨_, .nil⟩
  | append_singleton vs v ih =>
    rw [entryCount_append, entryCount_singleton] at hcount
    obtain ⟨s, htaken⟩ := ih h.of_append ((Nat.le_add_right _ _).trans hcount)
    obtain ⟨-, p, hp, hfollows⟩ := (isWalk_concat htaken.entered.paths).mp h
    rw [← htaken.entered.size_eq] at hcount
    exact ⟨_, htaken.visit ⟨hp, htaken.entered.refusal?_eq_none_iff.mpr hfollows, hcount⟩⟩

/-! ## What is wrong with a visit -/

/-- **How a visit breaks the order** after visits of the given paths, and what is said of it. -/
inductive Breaks (paths : List RelPath) (v : DirectoryVisit) : IndexError → Prop where
  | outside : v.path? = none → Breaks paths v (.outsideRoot v.directory)
  | lateRoot : v.path? = some .root → paths ≠ [] → Breaks paths v .lateRoot
  | twice {p} : v.path? = some p → p ≠ .root → p ∈ paths → Breaks paths v (.visitedTwice p)
  | early {p d} : v.path? = some p → d ∈ p.split? → p ∉ paths → d.1 ∉ paths →
      Breaks paths v (.beforeParent p d.1)

theorem Breaks.not_follows {paths : List RelPath} (h : Breaks paths v e)
    (hpath : v.path? = some path) :
    ¬ Follows paths path := by
  unfold Follows
  cases h with
  | outside hnone => simp [hnone] at hpath
  | lateRoot hroot hne =>
    obtain rfl := Option.some.inj (hpath.symm.trans hroot)
    simp [hne, RelPath.split?_root]
  | twice hp hroot hmem =>
    obtain rfl := Option.some.inj (hpath.symm.trans hp)
    split <;> simp [hroot, hmem]
  | early hp hd _ hnot =>
    obtain rfl := Option.some.inj (hpath.symm.trans hp)
    have hroot : path ≠ .root := by
      rintro rfl
      cases hd
    split
    · exact hroot
    · rintro ⟨-, d', hd', hmem⟩
      obtain rfl := Option.some.inj (hd.symm.trans hd')
      exact hnot hmem

theorem Entered.breaks (h : Entered vs s) (hfault : s.fault? v = some e) :
    Breaks s.catalog.registry.keys v e := by
  unfold fault? at hfault
  cases hpath : v.path? with
  | none =>
    rw [hpath] at hfault
    obtain rfl := Option.some.inj hfault
    exact .outside hpath
  | some path =>
    simp only [hpath, refusal?] at hfault
    cases hsplit : path.split? with
    | none =>
      obtain rfl := RelPath.split?_eq_none_iff.mp hsplit
      simp only [hsplit] at hfault
      split at hfault
      · rename_i hsize
        obtain rfl := Option.some.inj hfault
        exact .lateRoot hpath (mt h.size_eq_zero_iff.mpr hsize)
      · cases hfault
    | some d =>
      have hroot : path ≠ .root := by
        rintro rfl
        cases hsplit
      simp only [hsplit] at hfault
      split at hfault
      · rename_i hmem
        obtain rfl := Option.some.inj hfault
        exact .twice hpath hroot hmem
      · rename_i hnot
        split at hfault
        · cases hfault
        · rename_i hparent
          obtain rfl := Option.some.inj hfault
          exact .early hpath hsplit hnot hparent

/-! ## The outcome -/

/-- **Which lists of visits are taken in.** -/
theorem takeIn_eq_ok_iff (naming : Naming) (visits : List DirectoryVisit) :
    (takeIn {} naming visits).1 = .ok () ↔
      IsWalk visits ∧ entryCount visits ≤ EntryId.capacity := by
  constructor
  · intro hok
    have htaken := taken_of_takeIn hok
    exact ⟨htaken.isWalk, htaken.entryCount_le⟩
  · rintro ⟨hwalk, hcount⟩
    obtain ⟨s, htaken⟩ := hwalk.taken naming hcount
    rw [takeIn_eq, htaken.exec (start_consistent naming)]

/-- A visit that is refused breaks the order, and leaves what the visits before it have done. -/
theorem takeIn_refused {naming : Naming} {visits : List DirectoryVisit}
    (h : takeIn {} naming visits = (.error (.refused e), s)) :
    ∃ before v after, visits = before ++ v :: after ∧ IsWalk before ∧ ¬ IsWalk (before ++ [v]) ∧
      (∃ paths, before.map DirectoryVisit.path? = paths.map some ∧ Breaks paths v e) ∧
      s = (takeIn {} naming before).2 := by
  have hstart := start_consistent naming
  rw [takeIn_eq] at h
  rcases visitAll_cases hstart visits with
    ⟨_, -, hexec⟩ | ⟨before, v, after, t, halt, u, rfl, htaken, hstops, hexec, hleft⟩
  · cases h.symm.trans hexec
  · obtain ⟨hhalt, rfl⟩ := Prod.mk.inj (h.symm.trans hexec)
    obtain rfl := Except.error.inj hhalt
    obtain rfl := hleft.resolve_left nofun
    obtain ⟨hfault⟩ := hstops
    have hpaths := htaken.entered.paths
    have hbreaks := htaken.entered.breaks hfault
    refine ⟨before, v, after, rfl, htaken.isWalk, ?_, ⟨_, hpaths, hbreaks⟩, ?_⟩
    · rw [isWalk_concat hpaths]
      rintro ⟨-, p, hp, hfollows⟩
      exact hbreaks.not_follows hp hfollows
    · rw [takeIn_eq, htaken.exec hstart]

/-- The numbers run out at a visit that is in order. -/
theorem takeIn_exhausted {naming : Naming} {visits : List DirectoryVisit}
    (h : takeIn {} naming visits = (.error .exhausted, s)) :
    ∃ before v after, visits = before ++ v :: after ∧ IsWalk (before ++ [v]) ∧
      EntryId.capacity < entryCount (before ++ [v]) := by
  rw [takeIn_eq] at h
  rcases visitAll_cases (start_consistent naming) visits with
    ⟨_, -, hexec⟩ | ⟨before, v, after, t, halt, u, rfl, htaken, hstops, hexec, -⟩
  · cases h.symm.trans hexec
  · obtain ⟨hhalt, -⟩ := Prod.mk.inj (h.symm.trans hexec)
    obtain rfl := Except.error.inj hhalt
    obtain - | ⟨hfault, hroom⟩ := hstops
    obtain ⟨path, hpath, hrefusal⟩ := fault?_eq_none_iff.mp hfault
    refine ⟨before, v, after, rfl, ?_, ?_⟩
    · rw [isWalk_concat htaken.entered.paths]
      exact ⟨htaken.inWalkOrder, path, hpath, htaken.entered.refusal?_eq_none_iff.mp hrefusal⟩
    · rw [entryCount_append, entryCount_singleton, ← htaken.entered.size_eq]
      exact Nat.lt_of_not_le hroom

/-- A walk with too many entries ends the program. -/
theorem IsWalk.takeIn_eq_exhausted (naming : Naming) (h : IsWalk vs)
    (hcount : EntryId.capacity < entryCount vs) :
    (takeIn {} naming vs).1 = .error .exhausted := by
  rcases hresult : takeIn {} naming vs with ⟨(e | _) | _, s⟩
  · obtain ⟨before, v, after, rfl, -, hnot, -⟩ := takeIn_refused hresult
    rw [← List.singleton_append, ← List.append_assoc] at h
    exact absurd h.of_append hnot
  · rfl
  · have hok := (takeIn_eq_ok_iff naming vs).mp (congrArg Prod.fst hresult)
    exact absurd hok.2 hcount.not_ge

/-- **The walks that an empty catalog takes in.** The first part says which they are, the second
what is there afterwards: all of the walk, or what came before the first visit out of order. A walk
that needs more numbers than there are ends the program. -/
theorem takeIn_outcome (naming : Naming) (visits : List DirectoryVisit) :
    ((takeIn {} naming visits).1 = .ok () ↔
      IsWalk visits ∧ entryCount visits ≤ EntryId.capacity) ∧
      match takeIn {} naming visits with
      | (.ok _, s) => Entered visits s
      | (.error (.refused e), s) => ∃ before v after, visits = before ++ v :: after ∧
          IsWalk before ∧ ¬ IsWalk (before ++ [v]) ∧
          (∃ paths, before.map DirectoryVisit.path? = paths.map some ∧ Breaks paths v e) ∧
          s = (takeIn {} naming before).2
      | (.error .exhausted, _) => ∃ before v after, visits = before ++ v :: after ∧
          IsWalk (before ++ [v]) ∧ EntryId.capacity < entryCount (before ++ [v]) := by
  refine ⟨takeIn_eq_ok_iff naming visits, ?_⟩
  rcases hresult : takeIn {} naming visits with ⟨(e | _) | _, s⟩
  · exact takeIn_refused hresult
  · exact takeIn_exhausted hresult
  · have htaken := taken_of_takeIn (congrArg Prod.fst hresult)
    rw [hresult] at htaken
    exact htaken.entered

/-- A root with so many files of one name. -/
def crowdedRoot (n : Nat) : DirectoryVisit where
  directory := "."
  stat := .plain .directory 0
  files := .replicate n ⟨"f", .plain .regular 0⟩

theorem isWalk_crowdedRoot (n : Nat) : IsWalk [crowdedRoot n] := by
  have hroot : RelPath.ofText? "." = some .root := by decide
  refine ⟨[.root], ?_, (@inWalkOrder_concat [] .root).mpr ⟨inWalkOrder_nil, by simp [Follows]⟩⟩
  rw [List.map_singleton, DirectoryVisit.path?, crowdedRoot, hroot, List.map_singleton]

theorem entryCount_crowdedRoot (n : Nat) : entryCount [crowdedRoot n] = 1 + n := by
  rw [entryCount_singleton, DirectoryVisit.entryCount, crowdedRoot, List.length_replicate]

/-- **A walk may need more numbers than there are.** This one is in order, and there is no number
for the last of its files. -/
theorem takeIn_crowded_root : IsWalk [crowdedRoot 4294967294] ∧
    (takeIn {} .relative [crowdedRoot 4294967294]).1 = .error .exhausted := by
  have hwalk := isWalk_crowdedRoot 4294967294
  have hcount : EntryId.capacity < entryCount [crowdedRoot 4294967294] := by
    rw [entryCount_crowdedRoot]
    decide
  exact ⟨hwalk, hwalk.takeIn_eq_exhausted .relative hcount⟩

end Indexing

end TreeQuery
