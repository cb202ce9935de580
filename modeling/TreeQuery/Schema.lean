/-!
# The schema

Queries see two tables: `files` with one row for every entry, and `relations` with one row for
every pair of an entry and another at or above it. No two columns have the same name, so a column
may be named without its table.

`Field.standard` is `WILDCARD_COLUMNS`, `Field.extra` is `EXTRA_COLUMNS` and `Field.qualifiedName`
is `qualified`. `Field.affinity` and `Field.nullable` are read off `CREATE_TABLES`.
-/

namespace TreeQuery

/-- The tables of the schema. -/
inductive Table where
  | files
  | relations
  deriving DecidableEq, Repr

/-- The name of a table. -/
def Table.name : Table → String
  | files => "files"
  | relations => "relations"

/-- What a column holds. -/
inductive Affinity where
  | text
  | integer
  deriving DecidableEq, Repr

/-- The columns of the two tables. -/
inductive Field where
  | fileName | directory | fullPath | fileType | fileSize | accessTime | modificationTime
  | ownerId | groupId | depth
  | fileId | creationTime | ancestorId | descendantId
  deriving DecidableEq, Repr

namespace Field

/-- The columns that `*` stands for, in the order of the result. -/
def standard : List Field :=
  [fileName, directory, fullPath, fileType, fileSize, accessTime, modificationTime, ownerId,
    groupId, depth]

/-- The columns that are only shown when they are named. -/
def extra : List Field := [fileId, creationTime, ancestorId, descendantId]

/-- Every column once. -/
def list : List Field := standard ++ extra

/-- The name of a column. -/
def name : Field → String
  | fileName => "file_name"
  | directory => "directory"
  | fullPath => "full_path"
  | fileType => "file_type"
  | fileSize => "file_size"
  | accessTime => "access_time"
  | modificationTime => "modification_time"
  | ownerId => "owner_id"
  | groupId => "group_id"
  | depth => "depth"
  | fileId => "file_id"
  | creationTime => "creation_time"
  | ancestorId => "ancestor_id"
  | descendantId => "descendant_id"

/-- The table that a column belongs to. -/
def table : Field → Table
  | depth | ancestorId | descendantId => .relations
  | _ => .files

/-- What a column holds. -/
def affinity : Field → Affinity
  | fileSize | ownerId | groupId | depth | fileId | ancestorId | descendantId => .integer
  | _ => .text

/-- Whether a column may hold no value. -/
def nullable : Field → Bool
  | fileType | creationTime => true
  | _ => false

/-- The name of a column with that of its table. -/
def qualifiedName (f : Field) : String := f.table.name ++ "." ++ f.name

theorem mem_list (f : Field) : f ∈ list := by cases f <;> decide

theorem name_injective {a b : Field} (h : a.name = b.name) : a = b := by
  cases a <;> cases b <;> first | rfl | exact absurd h (by decide)

end Field

end TreeQuery
