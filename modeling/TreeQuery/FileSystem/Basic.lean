import TreeQuery.Entry.Basic
import TreeQuery.FileSystem.RawPath

/-!
# The file system

What a walk can meet: files, links, and directories that list further names. A record may be
missing and a directory may refuse to be listed. `FileSystem.resolve` follows a path the way the
system does: names are looked up one after the other, links are followed on the way, and at the
end only if asked to or if a slash comes after.

This stands for what the program asks the system for, with `symlink_metadata`, `read_dir`, `is_dir`
and `canonicalize`. `FileSystem.canonicalOrSame` is `canonicalize_existing_path`.
-/

namespace TreeQuery

/-- Why the file system refuses. -/
inductive IoFault where
  | notFound
  | notDirectory
  | denied
  | tooManyLinks
  | nameTooLong
  | nulInPath
  /-- Any other refusal, in the words of the system. -/
  | other (description : String)
  deriving DecidableEq, Repr

/-- The wording of a refusal. -/
def IoFault.message : IoFault → String
  | notFound => "No such file or directory (os error 2)"
  | notDirectory => "Not a directory (os error 20)"
  | denied => "Permission denied (os error 13)"
  | tooManyLinks => "Too many levels of symbolic links (os error 40)"
  | nameTooLong => "File name too long (os error 36)"
  | nulInPath => "file name contained an unexpected NUL byte"
  | other description => description

/-- Something in the file system. -/
inductive FsNode where
  /-- Anything but a directory or a link. -/
  | file (stat : Stat)
  | link (stat : Stat) (target : RawPath)
  /-- A directory and what it lists, in the order of its listing. -/
  | directory (stat : Stat) (entries : List (RawName × FsNode))
  /-- A directory that cannot be listed. -/
  | sealed (stat : Stat) (fault : IoFault)
  /-- Something whose record cannot be read. -/
  | unreadable (fault : IoFault)

namespace FsNode

/-- Whether this is a directory. -/
def isDirectory : FsNode → Bool
  | directory .. | sealed .. => true
  | _ => false

/-- What a directory lists. -/
def entries : FsNode → List (RawName × FsNode)
  | directory _ entries => entries
  | _ => []

/-- What a directory holds under a name. -/
def entry? (n : FsNode) (name : RawName) : Option FsNode := n.entries.lookup name

end FsNode

/-- A file system: its root, and the place that relative paths start from. -/
structure FileSystem where
  root : FsNode
  current : List RawName := []

namespace FileSystem

/-- A place reached by names from the root, the last name first. -/
abbrev Place := List (RawName × FsNode)

/-- What stands at a place. -/
def nodeAt (fs : FileSystem) : Place → FsNode
  | [] => fs.root
  | (_, node) :: _ => node

/-- How many links one path may lead through. -/
def linkLimit : Nat := 40

/-- The longest name that a directory can hold. -/
def nameLimit : Nat := 255

/-- Follows the pieces of a path from a place. At most `links` links are followed; the link that
the last piece names is followed only if `last` says so. -/
def follow (fs : FileSystem) (last : Bool) (links : Nat) (place : Place) :
    List RawName → Except IoFault Place
  | [] => .ok place
  | piece :: pieces =>
    let node := fs.nodeAt place
    if !node.isDirectory then .error .notDirectory
    else if piece = [] ∨ piece = [dotByte] then follow fs last links place pieces
    else if piece = [dotByte, dotByte] then follow fs last links place.tail pieces
    else if nameLimit < piece.length then .error .nameTooLong
    else
      match node.entry? piece with
      | none => .error .notFound
      | some (.unreadable fault) => .error fault
      | some (.link stat target) =>
        if pieces.isEmpty && !last then .ok ((piece, .link stat target) :: place)
        else
          match links with
          | 0 => .error .tooManyLinks
          | links + 1 =>
            if target.isEmpty then .error .notFound
            else
              follow fs last links (if target.isAbsolute then [] else place)
                (target.pieces ++ pieces)
      | some node => follow fs last links ((piece, node) :: place) pieces
termination_by pieces => (links, pieces.length)

/-- The place that relative paths start from. -/
def start (fs : FileSystem) : Except IoFault Place :=
  follow fs true linkLimit [] fs.current

/-- The place that a path leads to. -/
def resolve (fs : FileSystem) (path : RawPath) (last : Bool) : Except IoFault Place := do
  if path.contains 0 then throw .nulInPath
  if path.isEmpty then throw .notFound
  let place ← if path.isAbsolute then pure [] else fs.start
  follow fs last linkLimit place path.pieces

/-- The path from the root to a place. -/
def path (place : Place) : RawPath :=
  match place.reverse.map Prod.fst with
  | [] => [slashByte]
  | names => names.flatMap fun name => slashByte :: name

/-- What a path names, without following a link at its end. -/
def record (fs : FileSystem) (path : RawPath) : Except IoFault FsNode :=
  (fs.resolve path false).map fs.nodeAt

/-- The canonical path of what a path names, all links followed. -/
def canonical (fs : FileSystem) (path : RawPath) : Except IoFault RawPath :=
  (fs.resolve path true).map FileSystem.path

/-- The canonical path of what a path names, or the path itself if it names nothing. -/
def canonicalOrSame (fs : FileSystem) (path : RawPath) : RawPath :=
  (fs.canonical path).toOption.getD path

/-- Whether a path leads to a directory. -/
def isDirectory (fs : FileSystem) (path : RawPath) : Bool :=
  match fs.resolve path true with
  | .ok place => (fs.nodeAt place).isDirectory
  | .error _ => false

end FileSystem

end TreeQuery
