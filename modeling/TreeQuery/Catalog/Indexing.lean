import TreeQuery.Catalog.Basic

/-!
# Building a catalog

A walk reports its directories one by one, each with its files: a `DirectoryVisit`. `Indexing`
takes the visits in. The root comes first, a directory after the one that holds it, and none
twice. A visit also announces the directories inside; those that are never visited are reported
when the walk is over.

`Indexing` is `WalkDriver`: `start` is its `new`, `visit` and `takeIn` are its `visit` and `drive`,
and `finish` reports `skipped`.
-/

namespace TreeQuery

/-- An entry of a directory that is no directory itself. -/
structure FileRecord where
  name : String
  stat : Stat
  deriving DecidableEq, Repr

/-- One directory of a walk. -/
structure DirectoryVisit where
  /-- Its place below the root, in any spelling. -/
  directory : String
  stat : Stat
  subdirectories : List String := []
  files : List FileRecord := []
  deriving DecidableEq, Repr

/-- How many directories and files a walk has brought in. -/
structure IndexCounts where
  directories : Nat := 0
  files : Nat := 0
  deriving DecidableEq, Repr

/-- The taking in of one walk. -/
structure Indexing where
  catalog : Catalog
  naming : Naming
  /-- Directories that were announced and not visited yet, each once. -/
  announced : List String := []
  counts : IndexCounts := {}

namespace Indexing

/-- The start of a walk. Absolute spelling gives the registry its absolute root. -/
def start (catalog : Catalog) (naming : Naming) : Indexing :=
  match naming with
  | .absolute root =>
    { catalog := { catalog with registry := catalog.registry.setRoot root }, naming }
  | .relative => { catalog, naming }

/-- Runs a computation on the catalog. -/
def onCatalog {α : Type} (m : Build Catalog α) : Build Indexing α :=
  Build.onPart catalog (fun s c => { s with catalog := c }) m

/-- Stores the entry of a directory: the root into an empty catalog, any other directory below the
one that holds it. -/
def insertDirectory (path : RelPath) (stat : Stat) : Build Indexing EntryId := do
  let s ← get
  match path.split? with
  | none =>
    if s.catalog.size ≠ 0 then throw (.refused .lateRoot)
    onCatalog (Catalog.insert ⟨RelPath.rootText, s.naming.spell .root, stat⟩ none)
  | some (parent, name) =>
    if (s.catalog.registry.get? path).isSome then throw (.refused (.visitedTwice path))
    match s.catalog.registry.get? parent with
    | none => throw (.refused (.beforeParent path parent))
    | some id => onCatalog (Catalog.insert ⟨name.text, s.naming.spell parent, stat⟩ (some id))

/-- Stores the files of a directory. -/
def insertFiles (path : RelPath) (id : EntryId) : List FileRecord → Build Indexing Unit
  | [] => pure ()
  | file :: files => do
    let s ← get
    let _ ← onCatalog (Catalog.insert ⟨file.name, s.naming.spell path, file.stat⟩ (some id))
    modify fun s => { s with counts := { s.counts with files := s.counts.files + 1 } }
    insertFiles path id files

/-- A directory has been visited: it counts, and is no longer awaited. -/
def arrive (path : RelPath) (s : Indexing) : Indexing :=
  { s with
    announced := s.announced.filter (· != path.text)
    counts := { s.counts with directories := s.counts.directories + 1 } }

/-- A directory announces another one inside it. -/
def announce (path : RelPath) (s : Indexing) (name : String) : Indexing :=
  let child := childText path.text name
  if child ∈ s.announced then s else { s with announced := s.announced ++ [child] }

/-- Takes in a visit and gives the number of its directory. -/
def visit (v : DirectoryVisit) : Build Indexing EntryId := do
  match RelPath.ofText? v.directory with
  | none => throw (.refused (.outsideRoot v.directory))
  | some path =>
    let id ← insertDirectory path v.stat
    onCatalog (Catalog.register path.text id)
    modify (arrive path)
    insertFiles path id v.files
    modify fun s => v.subdirectories.foldl (announce path) s
    return id

/-- Takes in visits up to the first that fails. -/
def visitAll : List DirectoryVisit → Build Indexing Unit
  | [] => pure ()
  | v :: vs => do
    let _ ← visit v
    visitAll vs

/-- Takes a whole walk into a catalog, up to the first visit that fails. -/
def takeIn (catalog : Catalog) (naming : Naming) (visits : List DirectoryVisit) :
    Except Halt Unit × Indexing :=
  (visitAll visits).run.run (start catalog naming)

/-- The announced directories that were never visited, in the order of their spellings. -/
def skipped (s : Indexing) : List String := s.announced.mergeSort (· ≤ ·)

end Indexing

end TreeQuery
