import Mathlib.Data.List.Nodup
import TreeQuery.Proofs.Catalog.Histories
import TreeQuery.Warning

/-!
# Which directories are found missing

A visit announces directories, and one that arrives is awaited no longer. The texts that are awaited
are made of a path and a name, those that are crossed out are spellings of paths. They meet because
names that can stand in a path make the spelling of a path (`exists_child_of_ordinary`), and they
do so in the right order because a directory is only taken in after the one that holds it: what a
visit announces has not arrived before (`Taken.not_reaches`).

So at any time exactly those directories are awaited that were announced and have not arrived
(`Taken.awaits`), and **`warnings_visitEach`** says that the warning at the end of a walk names
these and no others, however many visits were refused on the way and whatever there was before it.
-/

namespace TreeQuery

/-- Visits announce a directory by this path. -/
def Announces (vs : List DirectoryVisit) (text : String) : Prop :=
  ∃ v ∈ vs, ∃ path, v.path? = some path ∧ ∃ name ∈ v.subdirectories,
    childText path.text name = text

/-- Visits are made of the directory with this path. -/
def Reaches (vs : List DirectoryVisit) (text : String) : Prop :=
  ∃ v ∈ vs, ∃ path, v.path? = some path ∧ path.text = text

/-- Every name that visits announce can stand in a path. -/
def AnnouncesNames (vs : List DirectoryVisit) : Prop :=
  ∀ v ∈ vs, ∀ name ∈ v.subdirectories, IsOrdinary name.toList

variable {vs : List DirectoryVisit} {v : DirectoryVisit} {path : RelPath} {text name : String}

theorem announces_concat (hpath : v.path? = some path) : Announces (vs ++ [v]) text ↔
    Announces vs text ∨ ∃ name ∈ v.subdirectories, childText path.text name = text := by
  simp only [Announces, List.mem_append, List.mem_singleton, or_and_right, exists_or,
    exists_eq_left, hpath, Option.some.injEq, exists_eq_left']

theorem reaches_concat (hpath : v.path? = some path) :
    Reaches (vs ++ [v]) text ↔ Reaches vs text ∨ path.text = text := by
  simp only [Reaches, List.mem_append, List.mem_singleton, or_and_right, exists_or,
    exists_eq_left, hpath, Option.some.injEq, exists_eq_left']

/-- What is announced is the spelling of a path. -/
theorem exists_child_of_ordinary (path : RelPath) (h : IsOrdinary name.toList) :
    ∃ s : Segment, (path.child s).text = childText path.text name := by
  refine ⟨⟨name.toList, h⟩, ?_⟩
  rw [RelPath.text_child, Segment.text, String.ofList_toList]

namespace Indexing

variable {s s₀ : Indexing}

/-! ## One visit -/

theorem mem_foldl_announce {names : List String} :
    text ∈ (names.foldl (announce path) s).announced ↔
      text ∈ s.announced ∨ ∃ name ∈ names, childText path.text name = text := by
  induction names generalizing s with
  | nil => simp
  | cons name names ih =>
    have hannounce : text ∈ (announce path s name).announced ↔
        text ∈ s.announced ∨ childText path.text name = text := by
      simp only [announce]
      split
      · rename_i hmem
        refine ⟨.inl, fun h => h.elim id fun heq => heq ▸ hmem⟩
      · rw [List.mem_append, List.mem_singleton, eq_comm]
    rw [List.foldl_cons, ih, hannounce, List.exists_mem_cons_iff, or_assoc]

theorem nodup_foldl_announce {names : List String} (h : s.announced.Nodup) :
    (names.foldl (announce path) s).announced.Nodup := by
  induction names generalizing s with
  | nil => exact h
  | cons name names ih =>
    refine ih ?_
    simp only [announce]
    split
    · exact h
    · rename_i hnot
      rw [← List.concat_eq_append]
      exact h.concat hnot

/-- **What is awaited after a visit.** -/
theorem mem_announced_enter : text ∈ (s.enter path v).announced ↔
    text ∈ s.announced ∧ path.text ≠ text ∨
      ∃ name ∈ v.subdirectories, childText path.text name = text := by
  rw [enter, mem_foldl_announce, arrive, List.mem_filter, bne_iff_ne, ne_comm]

theorem nodup_announced_enter (h : s.announced.Nodup) : (s.enter path v).announced.Nodup :=
  nodup_foldl_announce (h.filter _)

/-! ## Walks -/

/-- The directories that hold visited ones are there. -/
theorem Taken.parent_mem_keys (h : Taken s₀ vs s) (hv : v ∈ vs) (hpath : v.path? = some path) :
    ∀ d ∈ path.split?, d.1 ∈ s.catalog.registry.keys := by
  induction h with
  | nil => cases hv
  | visit _ hadmits ih =>
    intro d hd
    rw [catalog_enter, Catalog.keys_enter hadmits.room]
    refine List.mem_append_left _ ?_
    rcases List.mem_append.mp hv with hv | hv
    · exact ih hv d hd
    · obtain rfl := List.mem_singleton.mp hv
      obtain rfl := Option.some.inj (hadmits.path?_eq.symm.trans hpath)
      exact Indexing.parent_mem_keys hadmits.refusal?_eq d hd

/-- **What a visit announces has not arrived before**, nor with the visit itself. -/
theorem Taken.not_reaches (h : Taken s₀ vs s) (h₀ : s₀.catalog.Consistent)
    (hpath : v.path? = some path) (hrefusal : s.refusal? path = none)
    (hname : IsOrdinary name.toList) : ¬ Reaches (vs ++ [v]) (childText path.text name) := by
  obtain ⟨segment, hchild⟩ := exists_child_of_ordinary path hname
  rw [reaches_concat hpath, ← hchild, RelPath.text_inj]
  rintro (⟨w, hw, q, hq, htext⟩ | hself)
  · obtain rfl := RelPath.text_inj.mp htext
    have hmem := h.parent_mem_keys hw hq _ RelPath.split?_child
    exact not_mem_keys (h.consistent h₀) hrefusal hmem
  · have hlength := congrArg (fun p => p.segments.length) hself
    simp [RelPath.child] at hlength

/-- **What is awaited**: each directory once that was announced and has not arrived. -/
structure Awaits (vs : List DirectoryVisit) (s : Indexing) : Prop where
  nodup : s.announced.Nodup
  mem_iff : ∀ text, text ∈ s.announced ↔ Announces vs text ∧ ¬ Reaches vs text

theorem Taken.awaits (h : Taken s₀ vs s) (h₀ : s₀.catalog.Consistent) (hnone : s₀.announced = [])
    (hnames : AnnouncesNames vs) : Awaits vs s := by
  induction h with
  | nil => exact ⟨by simp [hnone], by simp [hnone, Announces]⟩
  | @visit vs s v path htaken hadmits ih =>
    have hbefore := ih fun w hw => hnames w (List.mem_append_left _ hw)
    have hpath := hadmits.path?_eq
    refine ⟨nodup_announced_enter hbefore.nodup, fun text => ?_⟩
    rw [mem_announced_enter, hbefore.mem_iff, announces_concat hpath, or_and_right]
    refine or_congr ?_ (iff_self_and.mpr ?_)
    · rw [reaches_concat hpath, not_or, and_assoc]
    · rintro ⟨name, hname, rfl⟩
      have hordinary := hnames v (List.mem_append_right _ (List.mem_singleton.mpr rfl)) name hname
      exact htaken.not_reaches h₀ hpath hadmits.refusal?_eq hordinary

/-! ## The warning -/

theorem start_announced (c : Catalog) (naming : Naming) : (start c naming).announced = [] := by
  cases naming <;> rfl

/-- **The warning of a walk names what is missing**, on any catalog. There is one if the walk gets
to its end. -/
theorem warnings_visitEach (steps : List BuildStep) (naming : Naming)
    (visits : List DirectoryVisit) (hnames : AnnouncesNames visits)
    (hthrough : (start (build steps).catalog naming).GetsThrough visits) :
    let s := start (build steps).catalog naming
    ∃ missing : List String, missing.Nodup ∧
      (∀ text, text ∈ missing ↔
        Announces (s.accepted visits) text ∧ ¬ Reaches (s.accepted visits) text) ∧
      (s.visitEach visits).warnings = (if missing = [] then [] else [.notVisited missing]) ∧
      ((s.visitEach visits).warnings = [] ↔
        ∀ text, Announces (s.accepted visits) text → Reaches (s.accepted visits) text) := by
  intro s
  have h₀ : s.catalog.Consistent := (consistent_build steps).start naming
  have hawaits := (taken_accepted h₀ hthrough).awaits h₀ (start_announced _ naming)
    fun v hv => hnames v ((s.accepted_sublist visits).subset hv)
  have hmem : ∀ text, text ∈ (s.visitEach visits).skipped ↔
      Announces (s.accepted visits) text ∧ ¬ Reaches (s.accepted visits) text := by
    intro text
    rw [skipped, List.mem_mergeSort, hawaits.mem_iff]
  have hwarnings : (s.visitEach visits).warnings = if (s.visitEach visits).skipped = [] then []
      else [.notVisited (s.visitEach visits).skipped] := by
    simp only [warnings, List.isEmpty_iff]
  have hsilent : (s.visitEach visits).warnings = [] ↔ (s.visitEach visits).skipped = [] := by
    rw [hwarnings]
    split <;> simp [*]
  refine ⟨_, (List.mergeSort_perm _ _).nodup_iff.mpr hawaits.nodup, hmem, hwarnings, ?_⟩
  simp only [hsilent, List.eq_nil_iff_forall_not_mem, hmem, not_and, not_not]

/-- A second walk goes on below a directory of the first. What it announces twice, what refused
visits announce and what arrives is not in its warning. -/
theorem warnings_visitEach_second_walk :
    let steps : List BuildStep :=
      [.visit { directory := ".", stat := .plain .directory 0, subdirectories := ["a", "e"] },
        .visit { directory := "a", stat := .plain .directory 0, subdirectories := ["b"] }]
    let visits : List DirectoryVisit :=
      [{ directory := ".", stat := .plain .directory 0, subdirectories := ["z"] },
        { directory := "a//b", stat := .plain .directory 0, subdirectories := ["c", "d", "d"] },
        { directory := "x/y", stat := .plain .directory 0, subdirectories := ["z"] },
        { directory := "a/./b/c", stat := .plain .directory 0 },
        { directory := "a/b", stat := .plain .directory 0, subdirectories := ["z"] }]
    let s := start (build steps).catalog .relative
    AnnouncesNames visits ∧ s.GetsThrough visits ∧
      (s.visitEach visits).announced = ["a/b/d"] ∧
      ∃ missing : List String, missing.Nodup ∧
        (∀ text, text ∈ missing ↔
          Announces (s.accepted visits) text ∧ ¬ Reaches (s.accepted visits) text) ∧
        (s.visitEach visits).warnings = (if missing = [] then [] else [.notVisited missing]) ∧
        ((s.visitEach visits).warnings = [] ↔
          ∀ text, Announces (s.accepted visits) text → Reaches (s.accepted visits) text) := by
  intro steps visits s
  have hnames : AnnouncesNames visits := by
    unfold AnnouncesNames
    decide +kernel
  have hthrough : s.GetsThrough visits := by
    simp only [visits, GetsThrough]
    decide +kernel
  exact ⟨hnames, hthrough, by decide +kernel,
    warnings_visitEach steps .relative visits hnames hthrough⟩

end Indexing

end TreeQuery
