/-
  REPORTS: what a run has to say.

  Diagnostics have a level and a place; the output of a program has neither place nor position and
  the lowest level.  A diagnostic above the allowed level is not recorded, nor one that was recorded
  before for the same place; output always is.

    1. LEVELS AND PLACES.  `Level`, `Location`, `Token`.
    2. REPORTS.            `Report`, `Reports.push`, `Reports.print`.
    3. OFFSETS.            `Location.offset`: the character a location stands for in a text, a tab
                           being four columns wide; `Location.ofOffset`, the other way.
    4. HEADINGS.           The title of a report and where it points; no
drawing of the text. -/
import CompositeGraph.Json.Decoder
import CompositeGraph.Json.Writer

namespace CompositeGraph

/-! ## Levels and places -/

/-- How grave a report is. -/
inductive Level where
  | info
  | warning
  | error
  deriving DecidableEq, Repr, Inhabited

namespace Level

def number : Level → Nat
  | .info => 0
  | .warning => 1
  | .error => 2

/-- Every number above two is an error. -/
def ofNumber : Nat → Level
  | 0 => .info
  | 1 => .warning
  | _ => .error

def toJson (level : Level) : Json := .ofNat level.number

def decoder : Decoder Level := fun pass levels draft =>
    ofNumber <$> Decoder.natural 8 pass levels draft

end Level

/-- A place in a text: lines and columns count from zero, and a tab takes four columns. -/
structure Location where
  line : Nat := 0
  column : Nat := 0
  deriving DecidableEq, Repr, Inhabited

namespace Location

def display (location : Location) : String :=
  toString location.line ++ ":" ++ toString location.column

def toJson (location : Location) : Json :=
  .object [("line", .ofNat location.line), ("column", .ofNat location.column)]

def decoder : Decoder Location :=
  Decoder.record {}
    [Decoder.field "line" .needed (Decoder.natural 64) fun value location =>
      { location with line := value },
      Decoder.field "column" .needed (Decoder.natural 64) fun value location =>
        { location with column := value }]

end Location

/-- A token of a program, of which only the location is used. -/
structure Token where
  position : Nat := 0
  location : Location := {}
  kind : String := ""
  value : String := ""
  deriving DecidableEq, Repr, Inhabited

namespace Token

def toJson (token : Token) : Json :=
  .object [("position", .ofNat token.position), ("location", token.location.toJson),
    ("type", .text token.kind), ("value", .text token.value)]

def decoder : Decoder Token :=
  Decoder.record {}
    [Decoder.field "position" .defaulted (Decoder.natural 64) fun value token =>
        { token with position := value },
      Decoder.field "location" .defaulted Location.decoder fun value token =>
        { token with location := value },
      Decoder.field "type" .defaulted Decoder.text fun value token => { token with kind := value },
      Decoder.field "value" .defaulted Decoder.text fun value token =>
        { token with value := value }]

end Token

/-! ## Reports -/

/-- A diagnostic, or a piece of output. -/
structure Report where
  level : Level
  position : Option Nat
  location : Option Location
  string : String
  deriving DecidableEq, Repr

namespace Report

def toJson (report : Report) : Json :=
  .object [("level", report.level.toJson), ("position", .ofOption .ofNat report.position),
    ("location", .ofOption Location.toJson report.location), ("string", .text report.string)]

def decoder : Decoder Report :=
  Decoder.record ⟨.info, none, none, ""⟩
    [Decoder.field "level" .needed Level.decoder fun value report => { report with level := value },
      Decoder.field "position" .nullable (Decoder.nullable (Decoder.natural 64)) fun value report =>
        { report with position := value },
      Decoder.field "location" .nullable (Decoder.nullable Location.decoder) fun value report =>
        { report with location := value },
      Decoder.field "string" .needed Decoder.text fun value report =>
        { report with string := value }]

end Report

/-- The reports of a run so far. -/
structure Reports where
  entries : Array Report := #[]
  allowed : Level := .error
  deriving Repr

namespace Reports

def startingAt (allowed : Level) : Reports := { allowed := allowed }

/-- Records a diagnostic, unless it is above the allowed level or was recorded before. -/
def push (reports : Reports) (level : Level) (position : Nat) (location : Location)
    (string : String) : Reports :=
  if reports.allowed.number < level.number then reports
  else if reports.entries.any fun r =>
    r.location == some location && r.string == string then reports
  else { reports with
    entries := reports.entries.push ⟨level, some position, some location, string⟩ }

/-- Records output. -/
def print (reports : Reports) (string : String) : Reports :=
  { reports with entries := reports.entries.push ⟨.info, none, none, string⟩ }

end Reports

/-! ## Offsets -/

namespace Location

/-- The columns a character takes. -/
def width (c : Char) : Nat := if c == '\t' then 4 else 1

/-- Counts the characters from a place up to a location; a line that is too short ends the count. -/
def offsetFrom (target : Location) (line column : Nat) : List Char → Nat
  | [] => 0
  | c :: rest =>
    if line = target.line ∧ target.column ≤ column then 0
    else if c = '\n' then
      if line = target.line then 0 else offsetFrom target (line + 1) 0 rest + 1
    else offsetFrom target line (column + width c) rest + 1

/-- The character a location stands for. -/
def offset (text : List Char) (location : Location) : Nat := offsetFrom location 0 0 text

/-- The place after a character. -/
def after (location : Location) (c : Char) : Location :=
  if c = '\n' then ⟨location.line + 1, 0⟩ else ⟨location.line, location.column + width c⟩

/-- The location of a character. -/
def ofOffset (text : List Char) (index : Nat) : Location := (text.take index).foldl after {}

end Location

/-! ## Headings -/

namespace Report

/-- What a report points at: one character, or none at the end of the text. -/
def span (text : List Char) (location : Location) : Nat × Nat :=
  let start := location.offset text
  (start, max (min (start + 1) text.length) start)

/-- What is said and where in the tree it came from: the two sides of the first arrow. -/
def messageAndDetail (string : String) : String × String :=
  match string.splitOn " -> " with
  | detail :: message :: more => (" -> ".intercalate (message :: more), detail)
  | _ => (string, "")

def heading : Level → String
  | .info => "Advice"
  | .warning => "Warning"
  | .error => "Error"

def title (report : Report) : String :=
  heading report.level ++ ": " ++ (messageAndDetail report.string).1

/-- Line and column, counted from one, of a character.  A line feed belongs to the line it ends, and
    no line follows the last one. -/
def lineAndColumn (text : List Char) (index : Nat) : Nat × Nat :=
  let before := text.take index
  let breaks := before.filter (· == '\n') |>.length
  let column := (before.reverse.takeWhile (· != '\n')).length
  if text.length ≤ index && before.getLast? == some '\n' then
    (breaks, (before.dropLast.reverse.takeWhile (· != '\n')).length + 2)
  else (breaks + 1, column + 1)

/-- Where a report points, in a text of a given name. -/
def place (filename : String) (text : List Char) (location : Location) : String :=
  let (line, column) := lineAndColumn text (span text location).1
  filename ++ ":" ++ toString line ++ ":" ++ toString column

/-- The head of a report as it is shown: title, place and detail.  The excerpt of the text that is
    drawn below it is left out. -/
def render (report : Report) (filename : String) (text : String) : String :=
  match report.location with
  | none => report.string
  | some location =>
    report.title ++ "\n   ╭─[ " ++ place filename text.toList location ++ " ]\n" ++
      (messageAndDetail report.string).2 ++ "\n"

end Report

end CompositeGraph
