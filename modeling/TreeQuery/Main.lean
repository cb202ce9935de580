import TreeQuery.CommandLine.Run

/-!
# The command

Reads the disk, the words of the command line and the lines of the input, and prints outcomes as
they come up; what an outcome is, `TreeQuery.CommandLine.Run` says. Records reach this module
without owner, group, creation time and the kind of a special file, so these keep their defaults.
-/

namespace TreeQuery.CommandLine

/-! ## The disk -/

/-- A path as the system takes it. -/
def diskPath (path : RawPath) := (IO.FS.DirEntry.mk path.text "").root

/-- The mode of a record, as far as the system tells its kind. -/
def modeOf : IO.FS.FileType → UInt32
  | .dir => EntryKind.directory.bits
  | .file => EntryKind.regular.bits
  | .symlink => EntryKind.symlink.bits
  | .other => 0

/-- The record that the system keeps. -/
def statOf (m : IO.FS.Metadata) : Stat where
  mode := modeOf m.type
  size := m.byteSize
  accessTime := ⟨m.accessed.sec, m.accessed.nsec.toNat⟩
  modificationTime := ⟨m.modified.sec, m.modified.nsec.toNat⟩

/-- The refusal that the system's error means. -/
def faultOf : IO.Error → IoFault
  | .noFileOrDirectory .. => .notFound
  | .inappropriateType .. => .notDirectory
  | .permissionDenied .. => .denied
  | e => .other (toString e)

mutual

/-- What stands at a path, with all below it. The targets of links are not asked for, as a walk
follows none. -/
partial def readNode (path : RawPath) : IO FsNode := do
  match ← (diskPath path).symlinkMetadata.toBaseIO with
  | .error e => return .unreadable (faultOf e)
  | .ok m =>
    match m.type with
    | .dir => readDirectory path (statOf m)
    | .symlink => return .link (statOf m) []
    | _ => return .file (statOf m)

/-- The directory at a path, with all below it. -/
partial def readDirectory (path : RawPath) (stat : Stat) : IO FsNode := do
  match ← (diskPath path).readDir.toBaseIO with
  | .error e => return .sealed stat (faultOf e)
  | .ok listed =>
    let names := listed.toList.map fun entry => Text.encode entry.fileName
    return .directory stat (← names.mapM fun name => do return (name, ← readNode (path.child name)))

end

/-- The disk of the machine. -/
def disk : Session.Disk IO where
  isDirectory path := do
    match ← (diskPath path).metadata.toBaseIO with
    | .ok m => return m.type == .dir
    | .error _ => return false
  canonical path := do
    match ← (IO.FS.realPath (diskPath path)).toBaseIO with
    | .ok p => return Text.encode p.toString
    | .error _ => return path
  read path := do
    match ← readNode path with
    | .unreadable fault => return .error fault
    | node => return .ok node

/-! ## The input -/

/-- The bytes of the next line, its line feed included. At the end of the input there are none. -/
partial def readLine (input : IO.FS.Stream) : IO (List UInt8) := do
  match (← input.read 1).toList with
  | [] => return []
  | b :: _ => if b = 0x0A then return [b] else return b :: (← readLine input)

/-- Prints what an outcome prints and gives its code. -/
def Outcome.print (o : Outcome) : IO Nat := do
  IO.print o.stdout
  (← IO.getStdout).flush
  IO.eprint o.stderr
  return o.code

/-- Answers the lines of the input one by one, up to the place where it stops being text. -/
partial def Command.answerInput {σ : Type} (engine : Database.Engine σ) (c : Command)
    (input : IO.FS.Stream) (state : σ) : IO Nat := do
  let lines := linesOf (← readLine input)
  if lines.isEmpty then return 0
  let (outcome, state) := c.answer engine lines state
  let code ← outcome.print
  if lines.contains .broken then return code
  return max code (← c.answerInput engine input state)

/-- Runs a command and gives its exit code. -/
def runOnDisk (words : List String) : IO Nat := do
  let host := Host.onDisk disk
  match ← Command.start host words with
  | .error outcome => outcome.print
  | .ok c =>
    if 0 < c.options.verbosity then
      for warning in c.session.warnings do IO.eprintln warning.message
    match c.session.connect host.engine {} with
    | (.error f, _) => (Outcome.unopened f).print
    | (.ok (), state) =>
      if c.options.statements.isEmpty then c.answerInput host.engine (← IO.getStdin) state
      else (c.answer host.engine (c.options.statements.map .text) state).1.print

end TreeQuery.CommandLine

def main (words : List String) : IO UInt32 := do
  return (← TreeQuery.CommandLine.runOnDisk words).toUInt32
