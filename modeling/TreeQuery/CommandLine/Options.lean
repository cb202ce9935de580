import TreeQuery.Output.Format

/-!
# Options

The words of a command line are read from left to right. An option with a value may have it in the
same word or in the next one, and flags of one letter may share a word. What a word means is not
settled before the next one has been looked at: a value that turns out to be wrong is only
reported if the word behind it makes sense.

`Options` is `Args`. `Options.ofWords` stands for the reading of words that is derived from this
type.
-/

namespace TreeQuery.CommandLine

/-- What a command line asks for. -/
structure Options where
  directory : String := "."
  /-- The statements to answer; without any they are read from the input. -/
  statements : List String := []
  format : Output.Format := .table
  absolute : Bool := false
  ignored : List String := []
  verbosity : Nat := 0
  deriving DecidableEq, Repr

/-- Why a command line is not followed. -/
inductive UsageError where
  | invalidValue
  | unknownArgument
  | argumentConflict
  | tooManyValues
  /-- The usage is asked for. -/
  | help
  /-- The version is asked for. -/
  | version
  deriving DecidableEq, Repr

/-- The options that have a value. -/
inductive ValueOption where
  | execute | format | ignore
  deriving DecidableEq, Repr

/-- The options that have none. -/
inductive Flag where
  | absolute | verbose | help | version
  deriving DecidableEq, Repr

/-- An option. -/
inductive Switch where
  | value (o : ValueOption)
  | flag (f : Flag)
  deriving DecidableEq, Repr

/-- The option that a word behind two dashes names. -/
def Switch.ofLong? : String → Option Switch
  | "execute" => some (.value .execute)
  | "format" => some (.value .format)
  | "ignore" => some (.value .ignore)
  | "absolute" => some (.flag .absolute)
  | "verbose" => some (.flag .verbose)
  | "help" => some (.flag .help)
  | "version" => some (.flag .version)
  | _ => none

/-- The option that a letter behind one dash names. -/
def Switch.ofLetter? : Char → Option Switch
  | 'e' => some (.value .execute)
  | 'v' => some (.flag .verbose)
  | 'h' => some (.flag .help)
  | 'V' => some (.flag .version)
  | _ => none

/-- What has been read but is not settled yet. -/
inductive Pending where
  /-- An option that still needs its value. -/
  | awaiting (o : ValueOption)
  | value (o : ValueOption) (v : String)
  | directory (v : String)
  deriving DecidableEq, Repr

/-- The state between two words. -/
structure Reading where
  options : Options := {}
  pending? : Option Pending := none
  formatGiven : Bool := false
  directoryGiven : Bool := false
  /-- Whether `--` has ended the options. -/
  plainOnly : Bool := false
  deriving DecidableEq, Repr

namespace Reading

/-- The most often that `-v` counts. -/
def verbosityLimit : Nat := 255

/-- Takes the value of an option. -/
def setValue (r : Reading) (v : String) : ValueOption → Except UsageError Reading
  | .execute => .ok { r with options.statements := r.options.statements ++ [v] }
  | .format =>
    if r.formatGiven then .error .argumentConflict
    else
      match Output.Format.ofName? v with
      | some format => .ok { r with options.format := format, formatGiven := true }
      | none => .error .invalidValue
  | .ignore =>
    if v.isEmpty then .error .invalidValue
    else .ok { r with options.ignored := r.options.ignored ++ [v] }

/-- Settles what is pending. -/
def settle (r : Reading) : Except UsageError Reading :=
  match r.pending? with
  | none => .ok r
  | some (.awaiting _) => .error .invalidValue
  | some (.value o v) => { r with pending? := none }.setValue v o
  | some (.directory v) =>
    if v.isEmpty then .error .invalidValue
    else .ok { r with pending? := none, options.directory := v }

/-- Takes a flag. -/
def setFlag (r : Reading) : Flag → Except UsageError Reading
  | .absolute =>
    if r.options.absolute then .error .argumentConflict
    else .ok { r with options.absolute := true }
  | .verbose =>
    .ok { r with options.verbosity := min (r.options.verbosity + 1) verbosityLimit }
  | .help => .error .help
  | .version => .error .version

/-- Takes an option with the value that stands in the same word, if one does. -/
def setSwitch (r : Reading) (attached? : Option String) : Switch → Except UsageError Reading
  | .value o => do
    let r ← r.settle
    match attached? with
    | some v => r.setValue v o
    | none => return { r with pending? := some (.awaiting o) }
  | .flag f => do
    if attached?.isSome then throw .tooManyValues
    (← r.settle).setFlag f

/-- A word behind two dashes: a name, and perhaps `=` and a value. -/
def long (r : Reading) (cs : List Char) : Except UsageError Reading :=
  let name := cs.takeWhile (· != '=')
  let attached? := match cs.drop name.length with
    | [] => none
    | _ :: value => some (String.ofList value)
  match Switch.ofLong? (String.ofList name) with
  | some s => r.setSwitch attached? s
  | none => .error .unknownArgument

/-- The letters behind one dash. The rest behind an option with a value is its value. -/
def short (r : Reading) : List Char → Except UsageError Reading
  | [] => .ok r
  | c :: cs =>
    match Switch.ofLetter? c with
    | some (.flag f) => do short (← (← r.settle).setFlag f) cs
    | some (.value o) =>
      let attached? := match cs with
        | [] => none
        | '=' :: value => some (String.ofList value)
        | value => some (String.ofList value)
      r.setSwitch attached? (.value o)
    | none => .error .unknownArgument

/-- A word that is no option: the value that is awaited, or the directory. -/
def plain (r : Reading) (word : String) : Except UsageError Reading :=
  match r.pending?, r.plainOnly with
  | some (.awaiting o), false => .ok { r with pending? := some (.value o word) }
  | _, _ =>
    if r.directoryGiven then .error .unknownArgument
    else do return { (← r.settle) with pending? := some (.directory word), directoryGiven := true }

/-- The next word. -/
def word (r : Reading) (w : String) : Except UsageError Reading :=
  if r.plainOnly then r.plain w
  else
    match w.toList with
    | ['-', '-'] => .ok { r with plainOnly := true }
    | '-' :: '-' :: cs => r.long cs
    | '-' :: c :: cs => r.short (c :: cs)
    | _ => r.plain w

end Reading

/-- What the words of a command line ask for, the name of the program left out. -/
def Options.ofWords (words : List String) : Except UsageError Options := do
  let r ← words.foldlM Reading.word {}
  return (← r.settle).options

end TreeQuery.CommandLine
