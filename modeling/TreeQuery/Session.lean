import TreeQuery.Database.Engine
import TreeQuery.Failure
import TreeQuery.FileSystem.Walk
import TreeQuery.Query.Reading
import TreeQuery.Text.Utf8
import TreeQuery.Tree

/-!
# Sessions

A session knows one walked tree and answers statements about it. It is opened on a directory, or
built from visits that were made before, and does not change afterwards. Its catalog is handed to an
engine once, and the requests that statements make are answered by this engine.

`Session.openOn` is `Session::open`, `Session.ofVisits` with `Session.connect` is `from_visits`, and
`prepare` and `query` are those of the same names. A session does not keep its engine here, whose
states are passed on from one statement to the next.
-/

namespace TreeQuery

open Query

/-- How a tree is walked and its entries are spelled. -/
structure IndexOptions where
  /-- Whether directories are spelled by absolute paths. -/
  absolute : Bool := false
  /-- The paths that are left out with all under them. -/
  ignored : List RawPath := []
  deriving DecidableEq, Repr

/-- A walked tree that statements are asked about. -/
structure Session where
  root : RawPath
  catalog : Catalog
  /-- What the walk and the indexing left out. -/
  warnings : List Warning := []

namespace Session

/-! ## Opening -/

/-- The spelling of directories in a session on a root. -/
def naming (options : IndexOptions) (root : RawPath) : Naming :=
  if options.absolute then .absolute (trimSlashes root.text) else .relative

/-- The session of visits that were made below a root. The root is only looked at for the spelling
of directories. -/
def ofVisits (root : RawPath) (options : IndexOptions) (visits : List DirectoryVisit) :
    Except Failure Session :=
  match Indexing.takeIn {} (naming options root) visits with
  | (.ok _, s) => .ok ⟨root, s.catalog, s.warnings⟩
  | (.error halt, _) => .error halt.failure

/-- The session of the tree that stands at a path, all links in the path followed. -/
def openNode (order : NameOrder) (options : IndexOptions) (root : RawPath)
    (ignored : List RawPath) (node : FsNode) : Except Failure Session :=
  match node.walkRoot order ignored root with
  | .error fault => .error (.io fault)
  | .ok (tree, tally) => do
    let s ← ofVisits root options tree.visits
    return { s with warnings := tally.warnings ++ s.warnings }

/-- What a session has to ask of a file system, in a computation of type `m`. -/
structure Disk (m : Type → Type) where
  /-- Whether a path leads to a directory. -/
  isDirectory : RawPath → m Bool
  /-- The canonical form of a path, or the path itself if it names nothing. -/
  canonical : RawPath → m RawPath
  /-- What stands at a path. -/
  read : RawPath → m (Except IoFault FsNode)

/-- A file system that is known as a whole. -/
def Disk.ofFileSystem (fs : FileSystem) : Disk Id where
  isDirectory := fs.isDirectory
  canonical := fs.canonicalOrSame
  read := fs.record

variable {m : Type → Type} [Monad m]

/-- Walks a directory and indexes everything below it. -/
def openOn (disk : Disk m) (order : NameOrder) (root : RawPath) (options : IndexOptions) :
    m (Except Failure Session) := do
  let root ← disk.canonical root
  if ← disk.isDirectory root then
    let ignored ← options.ignored.mapM disk.canonical
    match ← disk.read root with
    | .ok node => return openNode order options root ignored node
    | .error fault => return .error (.io fault)
  else return .error (.notDirectory root)

/-! ## Asking -/

/-- The request that a statement makes of the database. -/
def prepare (s : Session) (text : String) : Except Failure Request := do
  let statement ← (Statement.ofText text).mapError .statement
  match s.catalog.registry.resolve? statement.path with
  | some root => return statement.request root
  | none => throw (.unknownPath statement.path)

variable {σ : Type}

/-- Hands the catalog to an engine. -/
def connect (engine : Database.Engine σ) (s : Session) : StateM σ (Except Failure Unit) :=
  (·.mapError .engine) <$> engine.load s.catalog

/-- The answer to a statement. The engine is only asked if the statement makes a request. -/
def query (engine : Database.Engine σ) (s : Session) (text : String) :
    StateM σ (Except Failure Database.Rows) :=
  match s.prepare text with
  | .ok request => (·.mapError .engine) <$> engine.execute request
  | .error f => return .error f

end Session

end TreeQuery
