import Mathlib.Data.List.TakeWhile
import TreeQuery.Catalog.Registry
import TreeQuery.Entry.Basic
import TreeQuery.Proofs.Path.Canonical

/-!
# Spelling paths and reading them again

The path that an entry is shown with is put together from the spelling of its directory and its
name, with a case for each end that may carry a slash. `fullPath_child` says that all cases come to
one: the spelling of the entry's own place. On the way back the absolute root is taken off again,
and what is left is that place (`Registry.place?_spell`).

An absolute root may have slashes at its end. The walk spells with them, the registry compares
without them.
-/

namespace TreeQuery

/-! ## Both ends of a canonical text -/

namespace RelPath

variable {p q : RelPath} {s : Segment}

theorem head?_text (p : RelPath) : p.text.toList.head? ≠ some '/' := by
  intro h
  have hread := ofText?_text p
  obtain ⟨rest, hrest⟩ := List.head?_eq_some_iff.mp h
  rw [ofText?, hrest] at hread
  cases hread

theorem toList_text_ne_nil (p : RelPath) : p.text.toList ≠ [] := by
  intro h
  have hread := ofText?_text p
  rw [ofText?, h] at hread
  cases hread

theorem getLast?_text_child : (p.child s).text.toList.getLast? = s.chars.getLast? := by
  have hs : s.text.toList = s.chars := String.toList_ofList
  have hne : s.chars ≠ [] := s.ordinary.1
  rw [text_child, childText]
  split
  · rw [hs]
  · rw [toList_append_slash, hs, List.getLast?_append_of_ne_nil _ (List.cons_ne_nil _ _),
      List.getLast?_cons_of_ne_nil hne]

theorem getLast?_text (p : RelPath) : p.text.toList.getLast? ≠ some '/' := by
  rcases p.root_or_child with rfl | ⟨q, s, rfl⟩
  · decide +kernel
  · rw [getLast?_text_child]
    exact fun h => s.ordinary.2.2.2 (List.mem_of_getLast? h)

end RelPath

/-! ## Roots -/

/-- A naming whose absolute root, if there is one, starts with a slash. -/
def Naming.Rooted (naming : Naming) : Prop :=
  ∀ root, naming = .absolute root → root.toList.head? = some '/'

/-- Only slashes are taken from the end of a root. -/
theorem exists_slashes_trimSlashes {root : String} (h : root.toList.head? = some '/') :
    ∃ slashes, root.toList = (trimSlashes root).toList ++ slashes ∧ ∀ c ∈ slashes, c = '/' := by
  have hslash : ∀ c ∈ root.toList.reverse.takeWhile (· == '/'), c = '/' := by
    intro c hc
    simpa using List.mem_takeWhile_imp hc
  have hsplit := congrArg List.reverse
    (List.takeWhile_append_dropWhile (p := (· == '/')) (l := root.toList.reverse))
  rw [List.reverse_append, List.reverse_reverse] at hsplit
  unfold trimSlashes
  simp only
  split
  · -- there is nothing but slashes
    rename_i hempty
    rw [Bool.and_eq_true, List.isEmpty_iff] at hempty
    obtain ⟨rest, hrest⟩ := List.head?_eq_some_iff.mp h
    rw [hempty.1, List.nil_append] at hsplit
    refine ⟨rest, hrest, fun c hc => hslash c ?_⟩
    rw [← List.mem_reverse, hsplit, hrest]
    exact List.mem_cons_of_mem _ hc
  · refine ⟨_, ?_, fun c hc => hslash c (List.mem_reverse.mp hc)⟩
    rw [String.toList_ofList]
    exact hsplit.symm

theorem dropFront?_append (front text : List Char) :
    dropFront? front (front ++ text) = some text := by
  induction front with
  | nil => rfl
  | cons c front ih => rw [List.cons_append, dropFront?, if_pos rfl, ih]

/-- **What a root leaves** of a text that goes on with slashes and then with something else. -/
theorem stripRoot_eq {candidate root : String} {slashes rest : List Char}
    (hcandidate : candidate.toList = root.toList ++ (slashes ++ rest))
    (hslashes : ∀ c ∈ slashes, c = '/') (hrest : rest.head? ≠ some '/')
    (hgap : rest = [] ∨ slashes ≠ [] ∨ root.toList.getLast? = some '/') :
    stripRoot candidate root =
      some (if rest = [] then RelPath.rootText else String.ofList rest) := by
  have hdrop : ∀ {front : List Char}, (∀ c ∈ front, c = '/') →
      (front ++ rest).dropWhile (· == '/') = rest := by
    intro front hfront
    rw [List.dropWhile_append_of_pos fun c hc => beq_iff_eq.mpr (hfront c hc)]
    cases rest with
    | nil => rfl
    | cons c rest =>
      refine List.dropWhile_cons_of_neg ?_
      simpa using hrest
  unfold stripRoot
  rw [hcandidate, dropFront?_append]
  simp only [Option.bind_eq_bind, Option.bind_some, List.isEmpty_iff]
  by_cases hgone : slashes ++ rest = [] ∨ root.toList.getLast? = some '/'
  · rw [if_pos hgone, hdrop hslashes]
    rfl
  · -- then there is a slash to take
    rw [not_or] at hgone
    obtain ⟨c, more, rfl⟩ : ∃ c more, slashes = c :: more := by
      refine List.exists_cons_of_ne_nil ?_
      rintro rfl
      rcases hgap with rfl | hne | hlast
      · exact hgone.1 rfl
      · exact hne rfl
      · exact hgone.2 hlast
    obtain ⟨rfl, hmore⟩ := List.forall_mem_cons.mp hslashes
    rw [if_neg (not_or.mpr hgone), List.cons_append, dropFront?, if_pos rfl, dropFront?,
      Option.bind_some, hdrop hmore]
    rfl

/-! ## Spelled paths -/

namespace Naming

variable {naming : Naming} {root : String} {p : RelPath} {s : Segment}

/-- The absolute root of a walk, as the registry keeps it. -/
def trimmedRoot? : Naming → Option String
  | relative => none
  | absolute root => some (trimSlashes root)

theorem spell_absolute_root : (absolute root).spell .root = root := by
  rw [spell, if_pos rfl]

theorem spell_absolute (hp : p ≠ .root) : (absolute root).spell p =
    if root.toList.getLast? = some '/' then root ++ p.text else root ++ "/" ++ p.text :=
  if_neg hp

theorem head?_spell (hroot : root.toList.head? = some '/') (p : RelPath) :
    ((absolute root).spell p).toList.head? = some '/' := by
  obtain ⟨cs, hcs⟩ := List.head?_eq_some_iff.mp hroot
  by_cases hp : p = .root
  · rw [hp, spell_absolute_root, hroot]
  · rw [spell_absolute hp]
    split <;> simp [hcs]

theorem getLast?_spell (hp : p ≠ .root) :
    ((absolute root).spell p).toList.getLast? ≠ some '/' := by
  rw [spell_absolute hp]
  split
  · rw [String.toList_append, List.getLast?_append_of_ne_nil _ p.toList_text_ne_nil]
    exact p.getLast?_text
  · rw [String.toList_append, List.getLast?_append_of_ne_nil _ p.toList_text_ne_nil]
    exact p.getLast?_text

/-- **A path below an absolute root is spelled** as the root without slashes at its end, slashes,
and what follows. -/
theorem exists_toList_spell (hroot : root.toList.head? = some '/') (p : RelPath) :
    ∃ slashes rest, ((absolute root).spell p).toList =
      (trimSlashes root).toList ++ (slashes ++ rest) ∧ (∀ c ∈ slashes, c = '/') ∧
      rest.head? ≠ some '/' ∧
      (rest = [] ∨ slashes ≠ [] ∨ (trimSlashes root).toList.getLast? = some '/') ∧
      (if rest = [] then RelPath.rootText else String.ofList rest) = p.text := by
  obtain ⟨slashes, hsplit, hslashes⟩ := exists_slashes_trimSlashes hroot
  by_cases hp : p = .root
  · subst hp
    refine ⟨slashes, [], ?_, hslashes, by simp, .inl rfl, if_pos rfl⟩
    rw [spell_absolute_root, List.append_nil, hsplit]
  · have htext : (if p.text.toList = [] then RelPath.rootText
        else String.ofList p.text.toList) = p.text := by
      rw [if_neg p.toList_text_ne_nil, String.ofList_toList]
    rw [spell_absolute hp]
    split
    · rename_i hlast
      refine ⟨slashes, p.text.toList, ?_, hslashes, p.head?_text, .inr ?_, htext⟩
      · rw [String.toList_append, hsplit, List.append_assoc]
      · by_cases hnone : slashes = []
        · rw [hnone, List.append_nil] at hsplit
          exact .inr (hsplit ▸ hlast)
        · exact .inl hnone
    · refine ⟨slashes ++ ['/'], p.text.toList, ?_, ?_, p.head?_text, .inr (.inl ?_), htext⟩
      · rw [toList_append_slash, hsplit]
        simp
      · simpa [or_imp, forall_and] using hslashes
      · simp

end Naming

/-! ## Reading spelled paths -/

namespace Registry

variable {r : Registry} {p q : RelPath} {naming : Naming}

/-- A canonical text names its path. -/
theorem place?_text (r : Registry) (p : RelPath) : r.place? p.text = some p := by
  rw [place?, if_neg p.head?_text, RelPath.ofText?_text]

/-- **A spelled path is read as the path.** -/
theorem place?_spell (hnaming : naming.Rooted) (hr : r.absoluteRoot? = naming.trimmedRoot?)
    (p : RelPath) : r.place? (naming.spell p) = some p := by
  cases naming with
  | relative => exact r.place?_text p
  | absolute root =>
    have hroot := hnaming root rfl
    obtain ⟨slashes, rest, hspelled, hslashes, hrest, hgap, htext⟩ :=
      Naming.exists_toList_spell hroot p
    have hstrip := stripRoot_eq hspelled hslashes hrest hgap
    rw [htext] at hstrip
    rw [place?, if_pos (Naming.head?_spell hroot p), hr]
    simp only [Naming.trimmedRoot?, Option.bind_eq_bind, Option.bind_some, hstrip,
      RelPath.ofText?_text]

end Registry

namespace Naming

variable {naming : Naming} {root : String} {p q : RelPath} {s : Segment}

/-- Different paths are spelled differently, whatever the root is. -/
theorem spell_inj : naming.spell p = naming.spell q ↔ p = q := by
  refine ⟨fun h => ?_, congrArg _⟩
  cases naming with
  | relative => exact RelPath.text_inj.mp h
  | absolute root =>
    -- below the root there is always something behind it
    have hlonger : ∀ {r : RelPath}, r ≠ .root →
        ((absolute root).spell .root).length < ((absolute root).spell r).length := by
      intro r hr
      have hpos : 0 < r.text.length := by
        rw [← String.length_toList]
        exact List.length_pos_iff.mpr r.toList_text_ne_nil
      rw [spell_absolute_root, spell_absolute hr]
      split <;> simp only [String.length_append] <;> omega
    by_cases hp : p = .root <;> by_cases hq : q = .root
    · rw [hp, hq]
    · exact absurd (congrArg String.length h) (hp ▸ (hlonger hq).ne)
    · exact absurd (congrArg String.length h) (hq ▸ (hlonger hp).ne')
    · rw [spell_absolute hp, spell_absolute hq] at h
      split at h
      · exact RelPath.text_inj.mp (String.append_right_inj _ |>.mp h)
      · exact RelPath.text_inj.mp (String.append_right_inj _ |>.mp h)

end Naming

/-! ## The path that an entry is shown with -/

namespace NewEntry

variable {naming : Naming} {root : String} {p : RelPath} {s : Segment} {stat : Stat}

theorem text_ne_rootText (s : Segment) : s.text ≠ RelPath.rootText := by
  intro h
  have hchars := congrArg String.toList h
  rw [Segment.text, String.toList_ofList] at hchars
  exact s.ordinary.2.1 hchars

theorem fullPath_child_relative : (mk s.text p.text stat).fullPath = (p.child s).text := by
  rw [fullPath, if_neg (text_ne_rootText s), RelPath.text_child, childText]
  by_cases hp : p.text = RelPath.rootText
  · rw [if_pos (.inl hp), if_pos hp]
  · have hempty : ¬ p.text.isEmpty := by
      rw [String.isEmpty_iff]
      exact fun h => p.toList_text_ne_nil (by rw [h]; rfl)
    rw [if_neg (not_or.mpr ⟨hp, hempty⟩), if_neg p.getLast?_text, if_neg hp]

theorem fullPath_child_absolute (hroot : root.toList.head? = some '/') :
    (mk s.text ((Naming.absolute root).spell p) stat).fullPath =
      (Naming.absolute root).spell (p.child s) := by
  have hhead := Naming.head?_spell hroot p
  have hdot : ¬ ((Naming.absolute root).spell p = RelPath.rootText ∨
      ((Naming.absolute root).spell p).isEmpty) := by
    rintro (h | h)
    · rw [h] at hhead
      exact absurd hhead (by decide +kernel)
    · rw [String.isEmpty_iff.mp h] at hhead
      cases hhead
  rw [fullPath, if_neg (text_ne_rootText s), if_neg hdot, Naming.spell_absolute
    RelPath.child_ne_root, RelPath.text_child, childText]
  by_cases hp : p = .root
  · rw [hp, Naming.spell_absolute_root, if_pos RelPath.text_root]
  · rw [if_neg (Naming.getLast?_spell hp), if_neg (mt RelPath.text_eq_rootText_iff.mp hp),
      Naming.spell_absolute hp]
    split <;> simp only [String.append_assoc]

/-- **An entry is shown as its place is spelled.** -/
theorem fullPath_child (hnaming : naming.Rooted) :
    (mk s.text (naming.spell p) stat).fullPath = naming.spell (p.child s) := by
  cases naming with
  | relative => exact fullPath_child_relative
  | absolute root => exact fullPath_child_absolute (hnaming root rfl)

end NewEntry

end TreeQuery
