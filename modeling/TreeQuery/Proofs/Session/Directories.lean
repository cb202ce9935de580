import TreeQuery.Proofs.Catalog.Subtrees
import TreeQuery.Proofs.Path.Spelling
import TreeQuery.Proofs.Query.Printing
import TreeQuery.Session

/-!
# Asking about a directory

The canonical path of a directory may hold quotes, backslashes, line feeds and any other character.
Between quotes, with a backslash before what would end it or escape, it is read as that path again
(`ofText_selectAll`), and the registry finds the directory of a canonical path
(`Registry.resolve?_of_getText?`).

**`prepare_selectAll`**: so every directory of a session can be asked about, whatever its name.
-/

namespace TreeQuery

open Query

/-! ## The statement -/

namespace Query

/-- The statement that asks for all that is known at and below a directory, with the path of the
directory between quotes of a kind. -/
def selectAll (q : Char) (path : String) : String :=
  "SELECT * FROM " ++ quoteTarget q path

theorem selectAll_toList (q : Char) (path : String) : (selectAll q path).toList =
    "SELECT".toList ++ ' ' :: ("*".toList ++ ' ' ::
      ("FROM".toList ++ ' ' :: (quoteTarget q path).toList)) := by
  rw [selectAll, String.toList_append]
  rfl

/-- **The path between the quotes is read as it is.** -/
theorem ofText_selectAll {q : Char} (hq : q = '"' ∨ q = '\'') (path : String) :
    Statement.ofText (selectAll q path) = .ok { path, columns := [.wildcard] } := by
  have hselect : Prints "SELECT".toList [lexeme (.keyword .select) "SELECT".toList] :=
    .keyword (by decide)
  have hstar : Word.Legible ⟨.symbol .star, ['*'], false⟩ :=
    ⟨.symbol .star, by decide, fun h => nomatch h⟩
  have hfrom : Form.From "FROM".toList := by decide
  have hprints := hselect.spaced ((Prints.of_word hstar).spaced (.source hq path hfrom))
  have hlexes := hprints forall_mem_head?_nil .nil
  rw [List.append_nil, List.append_nil] at hlexes
  obtain ⟨ls, hls, hspelling⟩ := exists_tokenize_iff.mpr ((selectAll_toList q path).symm ▸ hlexes)
  let source := lexeme (.source path) ("FROM".toList ++ ' ' :: (quoteTarget q path).toList)
  have hsource : source.token = .source path := rfl
  have hlayout : Layout { path, columns := [.wildcard] } _ :=
    .select (s := lexeme (.keyword .select) "SELECT".toList) rfl .none
      (.one (.wildcard (l := lexeme (.symbol .star) ['*']) rfl)) hsource .none .none .none .none
  exact ofText_eq_ok_iff.mpr ⟨_, ls, hls, hlayout.congr hspelling.symm, rfl⟩

end Query

/-! ## The directory -/

/-- A canonical path leads to the directory that is registered under it. -/
theorem Registry.resolve?_of_getText? {r : Registry} (h : r.keys.Nodup) {key : String}
    {id : EntryId} (hkey : r.getText? key = some id) : r.resolve? key = some id := by
  obtain ⟨path, rfl, hmem⟩ := (Registry.getText?_eq_some_iff h).mp hkey
  rw [resolve?, r.place?_text]
  exact (Registry.get?_eq_some_iff h).mpr hmem

namespace Session

variable {root : RawPath} {options : IndexOptions} {visits : List DirectoryVisit}
  {session : Session} {key : String} {id : EntryId} {q : Char}

/-- The catalog of a session is that of its visits. -/
theorem exists_taken (h : ofVisits root options visits = .ok session) :
    ∃ s, Indexing.Taken (.start {} (naming options root)) visits s ∧
      session.catalog = s.catalog := by
  unfold ofVisits at h
  split at h
  · rename_i s htake
    have htaken := Indexing.taken_of_takeIn (congrArg Prod.fst htake)
    rw [htake] at htaken
    exact ⟨s, htaken, (congrArg catalog (Except.ok.inj h)).symm⟩
  · cases h

theorem prepare_eq {text : String} {statement : Statement String} {r : EntryId}
    (hs : Statement.ofText text = .ok statement)
    (hr : session.catalog.registry.resolve? statement.path = some r) :
    session.prepare text = .ok (statement.request r) := by
  unfold prepare
  rw [hs]
  simp only [Except.mapError, bind, Except.bind, hr]
  rfl

/-- **Every directory can be asked about**, with its path between quotes of either kind. -/
theorem prepare_selectAll (hsession : ofVisits root options visits = .ok session)
    (hkey : session.catalog.registry.getText? key = some id) (hq : q = '"' ∨ q = '\'') :
    Statement.ofText (selectAll q key) = .ok { path := key, columns := [.wildcard] } ∧
      session.prepare (selectAll q key) =
        .ok { columns := Field.standard.map .ofField, root := id } := by
  obtain ⟨s, htaken, hcatalog⟩ := exists_taken hsession
  have hread := ofText_selectAll hq key
  rw [hcatalog] at hkey
  have hresolve : session.catalog.registry.resolve? key = some id := by
    rw [hcatalog]
    exact Registry.resolve?_of_getText? htaken.housed_start.keys_nodup hkey
  refine ⟨hread, ?_⟩
  rw [prepare_eq hread hresolve]
  simp [Statement.request, Column.projections]

/-- An absolute walk of directories whose names hold quotes, a backslash, a line feed, a digit and
a character beyond ASCII. -/
theorem prepare_selectAll_odd_names :
    let visits : List DirectoryVisit :=
      [{ directory := ".", stat := .plain .directory 0 },
        { directory := "1 'a\\", stat := .plain .directory 0 },
        { directory := "./1 'a\\/\"\n\u00e9\\/", stat := .plain .directory 0 }]
    ∃ session, ofVisits [0x2F] { absolute := true } visits = .ok session ∧
      session.catalog.registry.getText? "1 'a\\/\"\n\u00e9\\" = some (.ofSlot 2) ∧
      selectAll '\'' "1 'a\\/\"\n\u00e9\\" =
        "SELECT * FROM '1 \\'a\\\\/\"\n\u00e9\\\\'" ∧
      Statement.ofText (selectAll '\'' "1 'a\\/\"\n\u00e9\\") =
        .ok { path := "1 'a\\/\"\n\u00e9\\", columns := [.wildcard] } ∧
      session.prepare (selectAll '\'' "1 'a\\/\"\n\u00e9\\") =
        .ok { columns := Field.standard.map .ofField, root := .ofSlot 2 } := by
  intro visits
  cases hsession : ofVisits [0x2F] { absolute := true } visits with
  | error e =>
    have hok : (ofVisits [0x2F] { absolute := true } visits).isOk := by decide +kernel
    rw [hsession] at hok
    cases hok
  | ok session =>
    have hkey : (ofVisits [0x2F] { absolute := true } visits).toOption.bind
        (fun s => s.catalog.registry.getText? "1 'a\\/\"\n\u00e9\\") =
          some (.ofSlot 2) := by decide +kernel
    rw [hsession] at hkey
    exact ⟨session, rfl, hkey, by decide +kernel, prepare_selectAll hsession hkey (.inr rfl)⟩

end Session

end TreeQuery
