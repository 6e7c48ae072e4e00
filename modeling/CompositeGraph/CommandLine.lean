/-
  THE COMMAND LINE, without its effects.

    1. OPTIONS.  `Options.ofArguments` reads the arguments; it stops at the first thing wrong.
    2. RUNNING.  `run` says what is written where and with which code the program ends, given what
                 the files hold.
-/
import CompositeGraph.Program

namespace CompositeGraph.CommandLine

/-! ## Options -/

/-- The options that take a value. -/
inductive Setting where
  | preferences
  | callStackSize
  | reportLevel
  | source
  | snapshotIn
  | snapshotOut
  deriving DecidableEq, Repr

def Setting.ofName : String → Option Setting
  | "--preferences" => some .preferences
  | "--call-stack-size" => some .callStackSize
  | "--report-level" => some .reportLevel
  | "--source" => some .source
  | "--snapshot-in" => some .snapshotIn
  | "--snapshot-out" => some .snapshotOut
  | _ => none

/-- What the arguments ask for. -/
structure Options where
  input : Option String := none
  preferences : Option String := none
  callStackSize : Option Nat := none
  reportLevel : Option Level := none
  typeChecking : Bool := false
  source : Option String := none
  snapshotIn : Option String := none
  snapshotOut : Option String := none
  verbose : Bool := false
  deriving Repr

/-- Why arguments are not run. -/
inductive Refusal where
  | usage
  | help
  deriving DecidableEq, Repr

namespace Options

/-- Fills in something that must not have been filled in before. -/
def once {α : Type} (old : Option α) (new : Option α) : Except Refusal (Option α) :=
  match old, new with
  | none, some value => .ok (some value)
  | _, _ => .error .usage

/-- A path is never empty. -/
def path? (text : String) : Option String := if text.isEmpty then none else some text

/-- A natural number below a bound; it may have a plus sign. -/
def number? (bound : Nat) (text : String) : Option Nat :=
  let digits :=
    match text.toList with
    | '+' :: rest => rest
    | cs => cs
  if digits.isEmpty || !digits.all Char.isDigit then none
  else
    let value := digits.foldl (fun value c => 10 * value + (c.toNat - '0'.toNat)) 0
    if value < bound then some value else none

/-- Gives an option its value. -/
def assign (options : Options) (setting : Setting) (value : String) : Except Refusal Options :=
  match setting with
  | .preferences => return { options with preferences := ← once options.preferences (path? value) }
  | .callStackSize =>
    return { options with callStackSize := ← once options.callStackSize (number? UInt64.size value) }
  | .reportLevel =>
    return { options with
      reportLevel := ← once options.reportLevel ((number? 256 value).map Level.ofNumber) }
  | .source => return { options with source := ← once options.source (path? value) }
  | .snapshotIn => return { options with snapshotIn := ← once options.snapshotIn (path? value) }
  | .snapshotOut => return { options with snapshotOut := ← once options.snapshotOut (path? value) }

/-- An argument that is no option. -/
def positional (options : Options) (value : String) : Except Refusal Options :=
  return { options with input := ← once options.input (path? value) }

def setTypeChecking (options : Options) : Except Refusal Options :=
  if options.typeChecking then .error .usage else .ok { options with typeChecking := true }

def setVerbose (options : Options) : Except Refusal Options :=
  if options.verbose then .error .usage else .ok { options with verbose := true }

/-- Options of one letter, several of which may stand behind one dash. -/
def letter (options : Options) : Char → Except Refusal Options
  | 'v' => options.setVerbose
  | 'h' => .error .help
  | _ => .error .usage

/-- An option of a whole word that takes no value. -/
def word (options : Options) : String → Except Refusal Options
  | "--type-checking" => options.setTypeChecking
  | "--verbose" => options.setVerbose
  | "--help" => .error .help
  | _ => .error .usage

/-- Whether an argument is an option rather than a value; a single dash is a value. -/
def isOption (argument : String) : Bool := argument.startsWith "-" && argument != "-"

/-- The name of an option and the value behind an equals sign, if there is one. -/
def splitValue (argument : String) : String × Option String :=
  let cs := argument.toList
  let name := String.ofList (cs.takeWhile (· != '='))
  match cs.dropWhile (· != '=') with
  | [] => (name, none)
  | _ :: value => (name, some (String.ofList value))

/-- Reads arguments in order; behind a double dash none is an option. -/
def ofArgumentsFrom : Options → List String → Except Refusal Options
  | options, [] => .ok options
  | options, argument :: rest =>
    if argument == "--" then rest.foldlM positional options
    else if argument.startsWith "--" then
      match splitValue argument with
      | (name, some value) =>
        match Setting.ofName name with
        | some setting => do ofArgumentsFrom (← options.assign setting value) rest
        | none => .error .usage
      | (name, none) =>
        match Setting.ofName name, rest with
        | some _, [] => .error .usage
        | some setting, value :: rest =>
          if isOption value then .error .usage
          else do ofArgumentsFrom (← options.assign setting value) rest
        | none, rest => do ofArgumentsFrom (← options.word name) rest
    else if isOption argument then do
      ofArgumentsFrom (← (argument.toList.drop 1).foldlM letter options) rest
    else do ofArgumentsFrom (← options.positional argument) rest

/-- The options of the arguments; the input is always needed. -/
def ofArguments (arguments : List String) : Except Refusal Options := do
  let options ← ofArgumentsFrom {} arguments
  if options.input.isNone then .error .usage
  return options

end Options

/-! ## Running -/

/-- What the program does: its code, its output, its errors, and the file it writes. -/
structure Outcome where
  code : Nat
  output : String := ""
  errors : String := ""
  written : Option (String × String) := none

def usage : String := "Usage: arcane [OPTIONS] <INPUT>"

/-- How the program is used. -/
def help : String :=
  "\n".intercalate ["Interprets a lexed and parsed program", "", usage, "", "Arguments:",
    "  <INPUT>  Program JSON: `\x7b \"tokens\": [...], \"tree\": \x7b...\x7d \x7d`", "", "Options:",
    "      --preferences <PREFERENCES>", "          Preferences JSON file",
    "      --call-stack-size <CALL_STACK_SIZE>",
    "          Maximum number of nested function calls",
    "      --report-level <REPORT_LEVEL>",
    "          Highest recorded report level (0 info, 1 warning, 2 error)",
    "      --type-checking", "          Filter call overloads by structural type acceptance",
    "      --source <SOURCE>", "          Source text used to render located reports",
    "      --snapshot-in <SNAPSHOT_IN>", "          Store snapshot seeding the run",
    "      --snapshot-out <SNAPSHOT_OUT>",
    "          Write the resulting store snapshot to this file",
    "  -v, --verbose", "          Log interpreter activity at debug level",
    "  -h, --help", "          Print help", ""]

/-- What a file is read for. -/
inductive Purpose where
  | preferences
  | program
  | snapshot
  deriving DecidableEq, Repr

/-- Why a run with good options fails. -/
inductive Failure where
  | unread (path : String)
  | invalid (purpose : Purpose) (path : String)
  | unwritten (path : String)
  | exhausted

def Purpose.name : Purpose → String
  | .preferences => "preferences"
  | .program => "program"
  | .snapshot => "snapshot"

def Failure.message : Failure → String
  | .unread path => "Failed to read " ++ path
  | .invalid purpose path => "Invalid " ++ purpose.name ++ " in " ++ path
  | .unwritten path => "Failed to write " ++ path
  | .exhausted => "Out of memory"

def Failure.outcome (failure : Failure) : Outcome :=
  { code := 1, errors := "Error: " ++ failure.message ++ "\n" }

/-- What files hold, by path; none for one that cannot be read. -/
abbrev Files := String → Option String

def readFile (files : Files) (path : String) : Except Failure String :=
  (files path).elim (.error (.unread path)) .ok

/-- Reads a file and makes something of its text. -/
def readAs {α : Type} (files : Files) (purpose : Purpose) (path : String)
    (make : String → Option α) : Except Failure α := do
  (make (← readFile files path)).elim (.error (.invalid purpose path)) .ok

/-- The preferences of a file, or the usual ones, with what the options say on top. -/
def preferencesOf (files : Files) (options : Options) : Except Failure Preferences := do
  let preferences ←
    match options.preferences with
    | some path =>
      readAs files .preferences path fun text => (Preferences.decoder.run text).toOption
    | none => pure {}
  return { preferences with
    callStackSize := options.callStackSize.getD preferences.callStackSize
    allowedReportLevel := options.reportLevel.getD preferences.allowedReportLevel
    structuralTypeChecking := options.typeChecking || preferences.structuralTypeChecking }

/-- The last part of a path. -/
def fileName (path : String) : String := ((path.splitOn "/").filter (! ·.isEmpty)).getLast?.getD ""

def levelName : Level → String
  | .info => "Info"
  | .warning => "Warning"
  | .error => "Error"

/-- How a diagnostic is written: beside the text it is about, if that is given. -/
def diagnostic (source : Option (String × String)) (report : Report) : String :=
  match source with
  | some (name, text) => report.render name text
  | none =>
    let place := report.location.elim "" fun location => location.display ++ ": "
    "[" ++ levelName report.level ++ "] " ++ place ++ report.string ++ "\n"

/-- Adds a report to what is written: the lowest level is output, the others are errors. -/
def writeReport (source : Option (String × String)) (outcome : Outcome)
    (report : Report) : Outcome :=
  if report.level = .info then { outcome with output := outcome.output ++ report.string ++ "\n" }
  else { outcome with errors := outcome.errors ++ diagnostic source report }

/-- Interprets the program that the options name. -/
def interpret (files : Files) (input : String) (options : Options) :
    Except Failure Interpretation := do
  let preferences ← preferencesOf files options
  let program ← readAs files .program input fun text => (Program.ofText text).toOption
  let store ←
    match options.snapshotIn with
    | some path => readAs files .snapshot path fun text => (Snapshot.restore text).toOption
    | none => pure .empty
  (program.interpret store preferences).elim (.error .exhausted) .ok

/-- The text that reports are about, with the name of its file. -/
def sourceOf (files : Files) (options : Options) : Except Failure (Option (String × String)) :=
  match options.source with
  | some path => return some (fileName path, ← readFile files path)
  | none => return none

/-- Runs with options that were read. -/
def execute (files : Files) (writable : String → Bool) (input : String)
    (options : Options) : Outcome :=
  let prepared := do
    let done ← interpret files input options
    return (done, ← sourceOf files options)
  match prepared with
  | .error failure => failure.outcome
  | .ok (done, source) =>
    let outcome := done.reports.foldl (writeReport source) { code := 0 }
    match options.snapshotOut with
    | none => outcome
    | some path =>
      if writable path then { outcome with written := some (path, Snapshot.save done.store) }
      else
        { outcome with
          code := 1
          errors := outcome.errors ++ (Failure.unwritten path).outcome.errors }

/-- Runs the program with its arguments. -/
def run (arguments : List String) (files : Files) (writable : String → Bool) : Outcome :=
  match Options.ofArguments arguments with
  | .error .help => { code := 0, output := help }
  | .error .usage => { code := 2, errors := usage ++ "\n" }
  | .ok options => options.input.elim { code := 2 } fun input =>
      execute files writable input options

/-- The files that arguments name for reading. -/
def readPaths (arguments : List String) : List String :=
  match Options.ofArguments arguments with
  | .ok options =>
    [options.preferences, options.input, options.snapshotIn, options.source].filterMap id
  | .error _ => []

end CompositeGraph.CommandLine
