import Mathlib.Data.Char
import Mathlib.Data.List.Basic
import TreeQuery.Proofs.Path.Normalizing
import TreeQuery.Proofs.Query.Scanning
import TreeQuery.Session

/-!
# Absolute targets

FROM may name a directory by an absolute path. Its text is then compared with the absolute root of
the registry letter by letter, and what is left of it is read as a relative path. The stored root
has no slash at its end, unless it is nothing but one (`trimSlashes_cases`), so what follows the
root is the end of the text or a slash, and a sibling whose name only begins like the root is no
part of it (`stripRoot_eq_some`).

**`find_absolute`**: an absolute target names the directory that the text behind the root names,
read from the root, and every other absolute target names none. A target that names none is
reported as it was written.
-/

namespace TreeQuery

open Query

/-! ## Roots without slashes at their end -/

theorem trimSlashes_cases {root : String} (h : root.toList.head? = some '/') :
    trimSlashes root = "/" ∨ trimSlashes root ≠ "/" ∧ (trimSlashes root).toList.head? = some '/' ∧
      (trimSlashes root).toList.getLast? ≠ some '/' := by
  -- a text that does not end with a slash is not the slash
  suffices hcases : trimSlashes root = "/" ∨ (trimSlashes root).toList.head? = some '/' ∧
      (trimSlashes root).toList.getLast? ≠ some '/' by
    refine hcases.imp_right fun hends => ⟨fun hslash => ?_, hends⟩
    rw [hslash] at hends
    exact hends.2 rfl
  obtain ⟨slashes, hsplit, -⟩ := exists_slashes_trimSlashes h
  unfold trimSlashes at hsplit ⊢
  simp only at hsplit ⊢
  split
  · exact .inl rfl
  · rename_i hne
    rw [if_neg hne, String.toList_ofList] at hsplit
    rw [String.toList_ofList]
    have hkept : root.toList.reverse.dropWhile (· == '/') ≠ [] := by
      intro hnil
      rw [hnil] at hne
      refine hne ?_
      obtain ⟨cs, hcs⟩ := List.head?_eq_some_iff.mp h
      have hempty : root ≠ "" := by
        rintro rfl
        cases hcs
      simpa [String.isEmpty_iff] using hempty
    refine .inr ⟨?_, ?_⟩
    · rw [hsplit, List.head?_append_of_ne_nil _ (mt List.reverse_eq_nil_iff.mp hkept)] at h
      exact h
    · rw [List.getLast?_reverse]
      intro hslash
      have hnot := List.head?_dropWhile_not (· == '/') root.toList.reverse
      rw [hslash] at hnot
      simp at hnot

theorem dropFront?_eq_some_iff {front text rest : List Char} :
    dropFront? front text = some rest ↔ text = front ++ rest := by
  induction front generalizing text with
  | nil => simp [dropFront?, eq_comm]
  | cons c front ih =>
    cases text with
    | nil => simp [dropFront?]
    | cons d text =>
      by_cases hc : c = d
      · subst hc
        simp [dropFront?, ih]
      · simp [dropFront?, hc, Ne.symm hc]

/-- **What a root is taken off**: the root itself, and texts that go on with a slash. -/
theorem stripRoot_eq_some {target root rest : String} (h : stripRoot target root = some rest)
    (hlast : root.toList.getLast? ≠ some '/') :
    target = root ∨ ∃ more, target = root ++ "/" ++ more := by
  unfold stripRoot at h
  cases hbehind : dropFront? root.toList target.toList with
  | none =>
    rw [hbehind] at h
    cases h
  | some behind =>
    have htarget := dropFront?_eq_some_iff.mp hbehind
    rw [hbehind] at h
    simp only [Option.bind_eq_bind, Option.bind_some, List.isEmpty_iff, hlast, or_false] at h
    by_cases hend : behind = []
    · left
      rw [hend, List.append_nil] at htarget
      exact String.toList_inj.mp htarget
    · right
      rw [if_neg hend] at h
      obtain ⟨more, hmore, -⟩ := Option.bind_eq_some_iff.mp h
      refine ⟨String.ofList more, ?_⟩
      rw [← String.toList_inj, toList_append_slash, String.toList_ofList, htarget,
        dropFront?_eq_some_iff.mp hmore]
      rfl

/-! ## Texts behind the root -/

namespace RelPath

/-- Slashes in front of what is left do not lead anywhere. -/
theorem follow_slashes {slashes rest : List Char} (h : ∀ c ∈ slashes, c = '/')
    (place : List Segment) :
    follow (splitSlash (slashes ++ rest)) place = follow (splitSlash rest) place := by
  induction slashes with
  | nil => rfl
  | cons c slashes ih =>
    obtain ⟨rfl, hslashes⟩ := List.forall_mem_cons.mp h
    rw [List.cons_append, splitSlash_slash, follow_skip (by decide) (by decide), ih hslashes]

/-- What is left of a target, read from the root: with `./` in front, or without the slashes. -/
theorem ofText?_below {slashes rest : List Char} (h : ∀ c ∈ slashes, c = '/')
    (hrest : rest.head? ≠ some '/') :
    ofText? ("./" ++ String.ofList (slashes ++ rest)) =
      ofText? (if rest = [] then rootText else String.ofList rest) := by
  have hdot : ofText? rootText = some root := by decide +kernel
  have hne : rootText ≠ "" := by decide
  have hlead := ofText?_append hne (by decide) (String.ofList (slashes ++ rest))
  have hslash : rootText ++ "/" = "./" := by decide
  rw [hslash, hdot, Option.bind_some, String.toList_ofList, follow_slashes h] at hlead
  rw [hlead]
  split
  · rename_i hend
    rw [hend, hdot]
    rfl
  · rename_i hend
    rw [ofText?_eq (by rwa [String.toList_ofList]) (by rwa [String.toList_ofList]),
      String.toList_ofList]
    rfl

end RelPath

/-! ## Targets -/

/-- What stands in front of the slash below a root. The root `/` is that slash. -/
def rootFront (root : String) : String :=
  if root = "/" then "" else root

namespace Registry

variable {r : Registry} {root target : String}

/-- The entry of the directory that a target names, or what is reported of the target. -/
def find (r : Registry) (target : String) : Except Failure EntryId :=
  match r.resolve? target with
  | some id => .ok id
  | none => .error (.unknownPath target)

/-- **Two targets name the same**: one entry, or neither of them names any. -/
def NameAlike (r : Registry) (target target' : String) : Prop :=
  (∃ id, r.find target = .ok id ∧ r.find target' = .ok id) ∨
    r.find target = .error (.unknownPath target) ∧ r.find target' = .error (.unknownPath target')

/-- **Absolute targets are read below the root**, and nowhere else. -/
structure ReadsBelow (r : Registry) (root : String) : Prop where
  below : ∀ rest, r.NameAlike (rootFront root ++ "/" ++ rest) ("./" ++ rest)
  itself : r.NameAlike root "."
  elsewhere : ∀ target, target.toList.head? = some '/' → target ≠ root →
    (∀ rest, target ≠ rootFront root ++ "/" ++ rest) →
    r.find target = .error (.unknownPath target)

theorem find_of_place? (h : r.place? target = none) :
    r.find target = .error (.unknownPath target) := by
  rw [find, resolve?, h]
  rfl

/-- Targets that lead to one place, or both to none, name the same. -/
theorem nameAlike_of_place? {target' : String} (h : r.place? target = r.place? target') :
    r.NameAlike target target' := by
  have hresolve : r.resolve? target = r.resolve? target' := by rw [resolve?, resolve?, h]
  cases hid : r.resolve? target' with
  | some id =>
    rw [hid] at hresolve
    exact .inl ⟨id, by rw [find, hresolve], by rw [find, hid]⟩
  | none =>
    rw [hid] at hresolve
    exact .inr ⟨by rw [find, hresolve], by rw [find, hid]⟩

theorem place?_setRoot (h : target.toList.head? = some '/') :
    (r.setRoot root).place? target =
      (stripRoot target (trimSlashes root)).bind RelPath.ofText? := by
  have hset : (r.setRoot root).absoluteRoot? = some (trimSlashes root) := rfl
  rw [place?, if_pos h, hset, Option.bind_eq_bind, Option.bind_some]

theorem place?_noRoot (h : target.toList.head? = some '/') :
    { r with absoluteRoot? := none }.place? target = none := by
  rw [place?, if_pos h]
  rfl

/-- A text behind the root and slashes leads where it leads from the root. -/
theorem place?_below {slashes rest : List Char}
    (htarget : target.toList = (trimSlashes root).toList ++ (slashes ++ rest))
    (hhead : target.toList.head? = some '/') (hslashes : ∀ c ∈ slashes, c = '/')
    (hrest : rest.head? ≠ some '/')
    (hgap : rest = [] ∨ slashes ≠ [] ∨ (trimSlashes root).toList.getLast? = some '/') :
    (r.setRoot root).place? target =
      RelPath.ofText? (if rest = [] then RelPath.rootText else String.ofList rest) := by
  rw [place?_setRoot hhead, stripRoot_eq htarget hslashes hrest hgap, Option.bind_some]

theorem place?_dot_slash (r : Registry) (rest : String) :
    r.place? ("./" ++ rest) = RelPath.ofText? ("./" ++ rest) :=
  if_neg (by simp [String.toList_append])

theorem place?_front (hroot : root.toList.head? = some '/') (rest : String) :
    (r.setRoot root).place? (rootFront (trimSlashes root) ++ "/" ++ rest) =
      (r.setRoot root).place? ("./" ++ rest) := by
  obtain ⟨slashes, behind, hcut, hslashes, hbehind⟩ := exists_front (· == '/') rest.toList
  replace hslashes : ∀ c ∈ slashes, c = '/' := by simpa using hslashes
  replace hbehind : behind.head? ≠ some '/' := fun h => hbehind '/' h rfl
  have hrest : rest = String.ofList (slashes ++ behind) := by rw [← hcut, String.ofList_toList]
  rw [place?_dot_slash, hrest, RelPath.ofText?_below hslashes hbehind, ← hrest]
  rcases trimSlashes_cases hroot with hslash | ⟨hne, hhead, -⟩
  · -- the slash of the root is the slash below it
    rw [hslash, rootFront, if_pos rfl]
    have htarget : ("" ++ "/" ++ rest).toList =
        (trimSlashes root).toList ++ (slashes ++ behind) := by
      rw [hslash, toList_append_slash, hcut]
      rfl
    refine place?_below htarget ?_ hslashes hbehind (.inr (.inr ?_))
    · rw [toList_append_slash]
      rfl
    · rw [hslash]
      rfl
  · rw [rootFront, if_neg hne]
    have htarget : (trimSlashes root ++ "/" ++ rest).toList =
        (trimSlashes root).toList ++ ('/' :: slashes ++ behind) := by
      rw [toList_append_slash, hcut]
      rfl
    refine place?_below htarget ?_ (List.forall_mem_cons.mpr ⟨rfl, hslashes⟩) hbehind
      (.inr (.inl (List.cons_ne_nil _ _)))
    rw [toList_append_slash, List.head?_append, hhead]
    rfl

theorem place?_root (hroot : root.toList.head? = some '/') :
    (r.setRoot root).place? (trimSlashes root) = (r.setRoot root).place? "." := by
  have hhead : (trimSlashes root).toList.head? = some '/' := by
    rcases trimSlashes_cases hroot with h | ⟨-, h, -⟩
    · rw [h]
      rfl
    · exact h
  have htarget : (trimSlashes root).toList = (trimSlashes root).toList ++ ([] ++ []) := by simp
  have hdot : (r.setRoot root).place? "." = RelPath.ofText? RelPath.rootText :=
    if_neg (by decide)
  rw [hdot, place?_below htarget hhead (by simp) (by simp) (.inl rfl), if_pos rfl]

theorem place?_elsewhere (hroot : root.toList.head? = some '/')
    (hhead : target.toList.head? = some '/') (hne : target ≠ trimSlashes root)
    (hfront : ∀ rest, target ≠ rootFront (trimSlashes root) ++ "/" ++ rest) :
    (r.setRoot root).place? target = none := by
  rw [place?_setRoot hhead, Option.bind_eq_none_iff]
  intro rest hrest
  exfalso
  rcases trimSlashes_cases hroot with hslash | ⟨hroot', -, hlast⟩
  · obtain ⟨cs, hcs⟩ := List.head?_eq_some_iff.mp hhead
    refine hfront (String.ofList cs) ?_
    rw [← String.toList_inj, toList_append_slash, String.toList_ofList, hcs, hslash]
    rfl
  · rcases stripRoot_eq_some hrest hlast with heq | ⟨more, heq⟩
    · exact hne heq
    · refine hfront more ?_
      rw [rootFront, if_neg hroot', heq]

end Registry

/-- What a statement asks of the database is asked at the directory that its target names. -/
theorem Session.prepare_eq_find (session : Session) (text : String) : session.prepare text =
    ((Statement.ofText text).mapError .statement).bind fun s =>
      (session.catalog.registry.find s.path).map s.request := by
  cases hs : Statement.ofText text with
  | error e =>
    rw [prepare, hs]
    rfl
  | ok s =>
    rw [prepare, hs]
    simp only [Except.mapError, bind, Except.bind, Registry.find]
    cases session.catalog.registry.resolve? s.path <;> rfl

namespace Registry

/-- **Absolute targets name directories below the root**, and those alone. A session reports a
target as its statement has it. -/
theorem find_absolute (r : Registry) {root : String} (hroot : root.toList.head? = some '/') :
    (r.setRoot root).ReadsBelow (trimSlashes root) ∧
      (∀ target : String, target.toList.head? = some '/' →
        { r with absoluteRoot? := none }.find target = .error (.unknownPath target)) ∧
      ∀ (session : Session) (text : String), session.prepare text =
        ((Statement.ofText text).mapError .statement).bind fun s =>
          (session.catalog.registry.find s.path).map s.request := by
  refine ⟨⟨?_, ?_, ?_⟩, ?_, Session.prepare_eq_find⟩
  · exact fun rest => nameAlike_of_place? (place?_front hroot rest)
  · exact nameAlike_of_place? (place?_root hroot)
  · exact fun target hhead hne hfront => find_of_place? (place?_elsewhere hroot hhead hne hfront)
  · exact fun target hhead => find_of_place? (place?_noRoot hhead)

/-- A root with slashes at its end, a directory below it, and a sibling whose name begins alike. -/
theorem find_absolute_sibling :
    let r : Registry :=
      { directories := [(.root, .ofSlot 0), (⟨[⟨"sub".toList, by decide⟩]⟩, .ofSlot 1)] }
    "/data//".toList.head? = some '/' ∧
      (r.setRoot "/data//").find "/data//./sub/" = .ok (.ofSlot 1) ∧
      (r.setRoot "/data//").find "/data" = .ok (.ofSlot 0) ∧
      (r.setRoot "/data//").find "/data/../data" = .error (.unknownPath "/data/../data") ∧
      (r.setRoot "/data//").find "/data.old" = .error (.unknownPath "/data.old") ∧
      (r.setRoot "/data//").ReadsBelow "/data" := by
  intro r
  have hroot : "/data//".toList.head? = some '/' := by decide
  exact ⟨hroot, by decide +kernel, by decide +kernel, by decide +kernel, by decide +kernel,
    (find_absolute r hroot).1⟩

end Registry

end TreeQuery
