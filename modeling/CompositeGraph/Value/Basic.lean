/-
  VALUES.

  Values are immutable; what changes is which value a member or an entry holds.  Nil is the absence
  of a value.  A dictionary is a list of entries with a value or nil under each key; an array is a
  dictionary with the keys 0, 1, 2, ...

    1. VALUES.        `Value`, and `Primitive`, the sort of a value.
    2. EQUALITY.      Structural; floats by their own comparison.
    3. DICTIONARIES.  `Dictionary.insert`, `get?`, `remove`, by equality of keys.
    4. VIEWS.         Truth, the composites a value holds, its text.
-/
import CompositeGraph.TypeTree.Basic
import CompositeGraph.Decimal.Shortest

namespace CompositeGraph

/-- A value of a program. -/
inductive Value where
  | boolean (value : Bool)
  | integer (value : Int64)
  | float (value : Float)
  | string (value : String)
  | dictionary (entries : List (Value × Option Value))
  | type (type : TypeTree)
  /-- A reference that is passed on as such. -/
  | pointer (handle : Handle)
  | reference (handle : Handle)
  deriving Inhabited

/-- The sorts of value. -/
inductive Primitive where
  | boolean
  | integer
  | float
  | string
  | dictionary
  | type
  | pointer
  | reference
  deriving DecidableEq, Repr

namespace Primitive

def name : Primitive → String
  | .boolean => "boolean"
  | .integer => "integer"
  | .float => "float"
  | .string => "string"
  | .dictionary => "dictionary"
  | .type => "type"
  | .pointer => "pointer"
  | .reference => "reference"

def ofName : String → Option Primitive
  | "boolean" => some .boolean
  | "integer" => some .integer
  | "float" => some .float
  | "string" => some .string
  | "dictionary" => some .dictionary
  | "type" => some .type
  | "pointer" => some .pointer
  | "reference" => some .reference
  | _ => none

theorem ofName_name (p : Primitive) : ofName p.name = some p := by cases p <;> rfl

end Primitive

namespace Value

def primitive : Value → Primitive
  | .boolean _ => .boolean
  | .integer _ => .integer
  | .float _ => .float
  | .string _ => .string
  | .dictionary _ => .dictionary
  | .type _ => .type
  | .pointer _ => .pointer
  | .reference _ => .reference

/-! ## Equality -/

mutual

def same : Value → Value → Bool
  | .boolean a, .boolean b => a == b
  | .integer a, .integer b => a == b
  | .float a, .float b => a == b
  | .string a, .string b => a == b
  | .dictionary a, .dictionary b => sameEntries a b
  | .type a, .type b => a == b
  | .pointer a, .pointer b => a == b
  | .reference a, .reference b => a == b
  | _, _ => false

def sameEntries : List (Value × Option Value) → List (Value × Option Value) → Bool
  | [], [] => true
  | (k, v) :: rest, (k', v') :: rest' => same k k' && sameOption v v' && sameEntries rest rest'
  | _, _ => false

def sameOption : Option Value → Option Value → Bool
  | none, none => true
  | some a, some b => same a b
  | _, _ => false

end

instance : BEq Value := ⟨same⟩

end Value

/-! ## Dictionaries -/

/-- Entries in order, each with a value or nil under its key. -/
abbrev Dictionary := List (Value × Option Value)

namespace Dictionary

/-- Values under the keys 0, 1, 2, ... -/
def ofValues (values : List (Option Value)) : Dictionary :=
  values.zipIdx.map fun (value, index) => (.integer (Int64.ofNat index), value)

/-- Replaces the value under an equal key in its place, or adds an entry at the end. -/
def insert (key : Value) (value : Option Value) : Dictionary → Dictionary
  | [] => [(key, value)]
  | entry :: rest =>
    if entry.1 == key then (entry.1, value) :: rest else entry :: insert key value rest

/-- The value under a key. -/
def get? (entries : Dictionary) (key : Value) : Option Value :=
  (entries.find? fun entry => entry.1 == key).bind (·.2)

/-- Takes out every entry with an equal key. -/
def remove (entries : Dictionary) (key : Value) : Dictionary :=
  entries.filter fun entry => !(entry.1 == key)

/-- Whether that takes anything out. -/
def removes (entries : Dictionary) (key : Value) : Bool :=
  (remove entries key).length != entries.length

/-- The values that are not nil. -/
def values (entries : Dictionary) : List Value := entries.filterMap (·.2)

end Dictionary

/-! ## Views -/

namespace Value

/-- The composite a pointer or reference names. -/
def handle? : Value → Option Handle
  | .pointer handle => some handle
  | .reference handle => some handle
  | _ => none

mutual

/-- Every composite a value holds, those in dictionaries included. -/
def handles : Value → List Handle
  | .pointer handle => [handle]
  | .reference handle => [handle]
  | .dictionary entries => entryHandles entries
  | _ => []

def entryHandles : List (Value × Option Value) → List Handle
  | [] => []
  | (key, value) :: rest => handles key ++ optionHandles value ++ entryHandles rest

def optionHandles : Option Value → List Handle
  | none => []
  | some value => handles value

end

/-- Booleans are true by value, everything else by being there. -/
def truthy : Option Value → Bool
  | some (.boolean value) => value
  | some _ => true
  | none => false

mutual

/-- The text of a value. -/
def display : Value → String
  | .boolean value => if value then "true" else "false"
  | .integer value => toString value.toInt
  | .float value => Decimal.Layout.display.write value
  | .string value => value
  | .dictionary entries => "[" ++ ", ".intercalate (displayEntries entries) ++ "]"
  | .type _ => "<type>"
  | .pointer handle => "&" ++ handle.display
  | .reference handle => handle.display

def displayEntries : List (Value × Option Value) → List String
  | [] => []
  | (key, value) :: rest => (display key ++ ": " ++ displayOption value) :: displayEntries rest

def displayOption : Option Value → String
  | none => "nil"
  | some value => display value

end

end Value

end CompositeGraph
