import TreeQuery.CommandLine.Options
import TreeQuery.Session
import TreeQuery.Text.Blank

/-!
# Running the command

The command indexes one directory and answers statements about it, those that it is given or else
the lines of its input. Answers go to the output and failures to the error output, each as it
comes up; a statement that fails does not keep the next one from being answered. The exit code
says whether any of them failed.

`run` is `main`, `Options.index` is `index_options` and `splitLines` stands for `lines` of a reader.
What a command relies on is a `Host`. Log lines are left out, and so is output that cannot be
written.
-/

namespace TreeQuery.CommandLine

/-- What a command prints and the code that it exits with. -/
structure Outcome where
  stdout : String := ""
  stderr : String := ""
  code : Nat := 0
  deriving DecidableEq, Repr

namespace Outcome

/-- The code of a command that was not understood. -/
def usageCode : Nat := 2

/-- The code of a command that ended early. -/
def abortCode : Nat := 101

/-- The outcome of something that went wrong. -/
def failed (message : String) : Outcome := { stderr := message ++ "\n", code := 1 }

/-- The outcome when there is no session. -/
def unopened : Failure → Outcome
  | .exhausted => { failed Failure.exhausted.message with code := abortCode }
  | f => failed f.message

/-- One outcome after another. -/
def append (a b : Outcome) : Outcome :=
  ⟨a.stdout ++ b.stdout, a.stderr ++ b.stderr, max a.code b.code⟩

end Outcome

/-! ## Statements -/

/-- A line of the input, or the place where it stops being text. -/
inductive Line where
  | text (s : String)
  | broken
  deriving DecidableEq, Repr

/-- What is said of input that is no text. -/
def brokenMessage : String := "stream did not contain valid UTF-8"

/-- The bytes of every line, without the line feed and a carriage return before it. What comes
after the last line feed is a line unless it is empty. -/
def splitLines : List UInt8 → List (List UInt8)
  | [] => []
  | b :: bytes =>
    if b = 0x0A then [] :: splitLines bytes
    else
      match bytes, splitLines bytes with
      | 0x0A :: _, line :: lines => (if b = 0x0D then line else b :: line) :: lines
      | _, line :: lines => (b :: line) :: lines
      | _, [] => [[b]]

/-- The lines of some input. -/
def linesOf (input : List UInt8) : List Line :=
  (splitLines input).map fun line =>
    match Text.decode? line with
    | some s => .text s
    | none => .broken

section

variable {σ : Type}

/-- The outcome of one statement. Blank ones have none. -/
def runStatement (query : String → StateM σ (Except Failure Database.Rows))
    (format : Output.Format) (s : String) : StateM σ Outcome := do
  if Text.isBlankText s then return {}
  else
    match ← query s with
    | .ok rows => return { stdout := format.render rows }
    | .error f => return .failed f.message

/-- The outcome of statements up to the place where the input stops being text. -/
def runLines (query : String → StateM σ (Except Failure Database.Rows)) (format : Output.Format) :
    List Line → StateM σ Outcome
  | [] => return {}
  | .broken :: _ => return .failed brokenMessage
  | .text s :: rest => do
    let first ← runStatement query format s
    return first.append (← runLines query format rest)

end

/-! ## The command -/

/-- The options of indexing among the options of a command. -/
def Options.index (o : Options) : IndexOptions where
  absolute := o.absolute
  ignored := o.ignored.map Text.encode

/-- What a reader is told when a command is not understood, or asks for it. -/
def usage : String :=
  "Query filesystem metadata with SQL\n\n" ++
  "Usage: dirql [OPTIONS] [DIRECTORY]\n\n" ++
  "Arguments:\n" ++
  "  [DIRECTORY]  Directory to index [default: .]\n\n" ++
  "Options:\n" ++
  "  -e, --execute <QUERY>  Statement to run; repeatable. " ++
  "Without it, statements are read from stdin\n" ++
  "      --format <FORMAT>  Output format [default: table] [possible values: table, json]\n" ++
  "      --absolute         Spell directories as absolute paths\n" ++
  "      --ignore <DIR>     Directory to skip while indexing; repeatable\n" ++
  "  -v, --verbose...       Increase log verbosity (-v info, -vv debug)\n" ++
  "  -h, --help             Print help\n" ++
  "  -V, --version          Print version\n"

/-- The version. -/
def version : String := "dirql 0.1.0\n"

/-- The outcome of a command line that is not followed. -/
def UsageError.outcome : UsageError → Outcome
  | .help => { stdout := usage }
  | .version => { stdout := CommandLine.version }
  | _ => { stderr := usage, code := Outcome.usageCode }

/-- What reads the words of a command line. Where it gives no options, the command ends with an
outcome of its own. -/
abbrev Parser := List String → Except Outcome Options

/-- The reading of words that `Options.ofWords` gives. -/
def Options.parser : Parser := fun words => (Options.ofWords words).mapError UsageError.outcome

/-- **What a command relies on**: the disk and the order of nodes of one name in a walk, the reading
of the command line, and the database engine. -/
structure Host (m : Type → Type) (σ : Type) where
  disk : Session.Disk m
  order : NameOrder
  parse : Parser
  engine : Database.Engine σ

/-- A command that is under way: what it was asked for, and the session that it asks. -/
structure Command where
  options : Options
  session : Session

variable {m : Type → Type} {σ : Type}

/-- The host with a disk and what this program has of everything else. -/
def Host.onDisk (disk : Session.Disk m) : Host m Database.Tables :=
  ⟨disk, .stable, Options.parser, .ofTables⟩

namespace Command

/-- The outcome of lines of statements. -/
def answer (engine : Database.Engine σ) (c : Command) (lines : List Line) : StateM σ Outcome :=
  runLines (c.session.query engine) c.options.format lines

/-- Where the statements of a command come from: the words of the command, or else the input. -/
def lines (c : Command) (input : List UInt8) : List Line :=
  if c.options.statements.isEmpty then linesOf input else c.options.statements.map .text

/-- The outcome of a command whose session is open. -/
def finish (engine : Database.Engine σ) (c : Command) (input : List UInt8) : StateM σ Outcome := do
  match ← c.session.connect engine with
  | .ok () => c.answer engine (c.lines input)
  | .error f => return .unopened f

variable [Monad m]

/-- Opens the session that the words of a command line ask for, or gives the outcome without
one. -/
def start (host : Host m σ) (words : List String) : m (Except Outcome Command) := do
  match host.parse words with
  | .error outcome => return .error outcome
  | .ok o =>
    let directory := Text.encode o.directory
    if ← host.disk.isDirectory directory then
      match ← Session.openOn host.disk host.order directory o.index with
      | .ok session => return .ok ⟨o, session⟩
      | .error f => return .error (.unopened f)
    else return .error (.failed ("Not a directory: " ++ o.directory))

end Command

/-- The outcome of a command, from the state that the engine is in. -/
def run [Monad m] (host : Host m σ) (words : List String) (input : List UInt8) (state : σ) :
    m Outcome := do
  match ← Command.start host words with
  | .error outcome => return outcome
  | .ok c => return (c.finish host.engine input state).1

end TreeQuery.CommandLine
