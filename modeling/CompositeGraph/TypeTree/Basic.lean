/-
  TYPES AS FLAT TREES.

  A type is a list of parts.  Part 0 is the root and every other part names the index of its parent,
  so children are found by scanning.  A part that carries one collection aspect (a union, an array,
  the parameters of a function, ...) carries no second one: adding another makes a child part.

    1. PARTS.     `Kind`, `Predefined`, `Collection` and `TypePart`.
    2. BUILDING.  `push`, `collect`, `adjust`.
    3. READING.   Children, references, parameters, the return part, the requirements of the root.
    4. COPYING.   `subtype`: a part with all that is below it, as a type of its own.
-/
import CompositeGraph.Handle
import CompositeGraph.Node.Writer

namespace CompositeGraph

/-- The kinds of composite. -/
inductive Kind where
  | «class»
  | enumeration
  | function
  | «namespace»
  | object
  | protocol
  | «structure»
  deriving DecidableEq, Repr

/-- Whether initializing a composite of the kind makes objects. -/
def Kind.instantiable : Kind → Bool
  | .class => true
  | .structure => true
  | _ => false

/-- Types that have a name of their own. -/
inductive Predefined where
  | any
  | wildcard
  | void
  | boolean
  | integer
  | float
  | string
  | dictionary
  | type
  | composite (kind : Kind)
  deriving DecidableEq, Repr

namespace Predefined

/-- The written name. -/
def name : Predefined → String
  | .any => "Any"
  | .wildcard => "_"
  | .void => "Void"
  | .boolean => "boolean"
  | .integer => "integer"
  | .float => "float"
  | .string => "string"
  | .dictionary => "dictionary"
  | .type => "type"
  | .composite .class => "Class"
  | .composite .enumeration => "Enumeration"
  | .composite .function => "Function"
  | .composite .namespace => "Namespace"
  | .composite .object => "Object"
  | .composite .protocol => "Protocol"
  | .composite .structure => "Structure"

/-- The type of a name; four of them have a second one. -/
def ofName : String → Option Predefined
  | "Any" | "any" => some .any
  | "_" => some .wildcard
  | "Void" => some .void
  | "boolean" | "bool" => some .boolean
  | "integer" | "int" => some .integer
  | "float" => some .float
  | "string" => some .string
  | "dictionary" | "dict" => some .dictionary
  | "type" => some .type
  | "Class" => some (.composite .class)
  | "Enumeration" => some (.composite .enumeration)
  | "Function" => some (.composite .function)
  | "Namespace" => some (.composite .namespace)
  | "Object" => some (.composite .object)
  | "Protocol" => some (.composite .protocol)
  | "Structure" => some (.composite .structure)
  | _ => none

def kind? : Predefined → Option Kind
  | .composite kind => some kind
  | _ => none

/-- A written name is read back. -/
theorem ofName_name (p : Predefined) : ofName p.name = some p := by
  cases p with
  | composite k => cases k <;> rfl
  | _ => rfl

end Predefined

/-- What a part collects in its children. -/
inductive Collection where
  | union
  | intersection
  | array
  | dictionary
  | genericArguments
  | genericParameters
  | parameters
  | inheritedTypes
  deriving DecidableEq, Repr

/-- A part of a type. -/
structure TypePart where
  /-- Index of the part this one is under. -/
  parent : Option Nat := none
  predefined : Option Predefined := none
  reference : Option Handle := none
  nillable : Bool := false
  default : Bool := false
  variadic : Bool := false
  inout : Bool := false
  union : Bool := false
  intersection : Bool := false
  array : Bool := false
  dictionary : Bool := false
  genericParameters : Bool := false
  parameters : Bool := false
  genericArguments : Bool := false
  inheritedTypes : Bool := false
  /-- The part stands for the composite it refers to, not for its instances. -/
  isSelf : Bool := false
  throws : Option Requirement := none
  awaits : Option Requirement := none
  inits : Option Requirement := none
  deinits : Option Requirement := none
  label : Option String := none
  identifier : Option String := none
  /-- The expression a parameter takes when its argument is left out. -/
  value : Option Node := none
  deriving BEq, Inhabited

namespace TypePart

/-- The collection aspect of the part. -/
def collection? (part : TypePart) : Option Collection :=
  if part.union then some .union
  else if part.intersection then some .intersection
  else if part.array then some .array
  else if part.dictionary then some .dictionary
  else if part.genericArguments then some .genericArguments
  else if part.genericParameters then some .genericParameters
  else if part.parameters then some .parameters
  else if part.inheritedTypes then some .inheritedTypes
  else none

/-- Whether the children of the part are taken: it has an aspect, or it is a function. -/
def isCollection (part : TypePart) : Bool :=
  part.collection?.isSome || part.predefined == some (.composite .function)

def withCollection (part : TypePart) : Collection → TypePart
  | .union => { part with union := true }
  | .intersection => { part with intersection := true }
  | .array => { part with array := true }
  | .dictionary => { part with dictionary := true }
  | .genericArguments => { part with genericArguments := true }
  | .genericParameters => { part with genericParameters := true }
  | .parameters => { part with parameters := true }
  | .inheritedTypes => { part with inheritedTypes := true }

/-- Whether the part says nothing but where it is. -/
def isBlank (part : TypePart) : Bool := part == { parent := part.parent }

end TypePart

/-- A type: its parts, the root first. -/
structure TypeTree where
  parts : List TypePart := []
  deriving BEq, Inhabited

namespace TypeTree

/-! ## Building -/

def empty : TypeTree := {}

def ofPart (part : TypePart) : TypeTree := ⟨[part]⟩

def ofPredefined (predefined : Predefined) : TypeTree := ofPart { predefined := some predefined }

def ofKind (kind : Kind) : TypeTree := ofPredefined (.composite kind)

/-- The type of anything, nil included. -/
def anything : TypeTree := ofPart { predefined := some .wildcard, nillable := true }

/-- The type of a member that holds a composite itself. -/
def compositeSelf (predefined : Predefined) : TypeTree :=
  ofPart { predefined := some predefined, isSelf := true }

def size (type : TypeTree) : Nat := type.parts.length

def part? (type : TypeTree) (index : Nat) : Option TypePart := type.parts[index]?

def root? (type : TypeTree) : Option TypePart := type.parts.head?

/-- Changes the part at an index, if there is one. -/
def adjust (type : TypeTree) (index : Nat) (change : TypePart → TypePart) : TypeTree :=
  ⟨type.parts.modify index change⟩

/-- Adds a blank part; it stands at the index that the size was. -/
def push (type : TypeTree) (parent : Option Nat) : TypeTree :=
  ⟨type.parts ++ [{ parent := parent }]⟩

/-- Gives a collection aspect to the part at `index`, or to a new child of it if its children are
    taken.  Without such a part a new one is made under `parent`.  Gives the part's index. -/
def collect (type : TypeTree) (parent index : Option Nat)
    (collection : Collection) : TypeTree × Nat :=
  let add (parent : Option Nat) : TypeTree × Nat :=
    ((type.push parent).adjust type.size (·.withCollection collection), type.size)
  match index with
  | none => add parent
  | some index =>
    match type.part? index with
    | none => add parent
    | some part =>
      if part.isCollection then add (some index)
      else (type.adjust index (·.withCollection collection), index)

/-! ## Reading -/

/-- Indices of the parts under a part, in order. -/
def children (type : TypeTree) (index : Nat) : List Nat :=
  (type.parts.zipIdx.filter fun (part, _) => part.parent == some index).map (·.2)

/-- Handles that parts refer to. -/
def references (type : TypeTree) : List Handle := type.parts.filterMap (·.reference)

/-- The part at an index; a blank one if there is none. -/
def part (type : TypeTree) (index : Nat) : TypePart := (type.part? index).getD {}

/-- Children of the first part with a flag. -/
def flagged (type : TypeTree) (flag : TypePart → Bool) : List Nat :=
  match type.parts.findIdx? flag with
  | some index => type.children index
  | none => []

/-- The first inherited type of a composite type. -/
def inherited? (type : TypeTree) : Option Handle :=
  (type.flagged (·.inheritedTypes)).findSome? fun child => (type.part child).reference

/-- Parts of the declared generic parameters. -/
def genericParameters (type : TypeTree) : List TypePart :=
  (type.flagged (·.genericParameters)).map type.part

/-- Indices of the parameters of a function type. -/
def parameters (type : TypeTree) : List Nat := type.flagged (·.parameters)

/-- Index of the return type of a function type: the first child of the root that collects no
    parameters. -/
def return? (type : TypeTree) : Option Nat :=
  (type.children 0).find? fun child =>
    let part := type.part child
    !part.parameters && !part.genericParameters

def rootPredefined? (type : TypeTree) : Option Predefined := type.root?.bind (·.predefined)

def kind? (type : TypeTree) : Option Kind := type.rootPredefined?.bind (·.kind?)

/-- A requirement of the root; what is not said is absent. -/
def requirement (type : TypeTree) (get : TypePart → Option Requirement) : Requirement :=
  (type.root?.bind get).getD .absent

def inits (type : TypeTree) : Requirement := type.requirement (·.inits)

def deinits (type : TypeTree) : Requirement := type.requirement (·.deinits)

def awaits (type : TypeTree) : Requirement := type.requirement (·.awaits)

def throws (type : TypeTree) : Requirement := type.requirement (·.throws)

/-! ## Copying -/

/-- More levels than there is time or room for: what goes down that far never comes back. -/
def outOfReach : Nat := 1000000000000000000

/-- Appends the part at an index, under a parent, and all parts below it, each before its children.
    A part that stands below itself has no end: there is a copy only of what goes no deeper than a
    number of levels. -/
def copyInto? (type : TypeTree) :
    (levels : Nat) → (index : Nat) → (parent : Option Nat) → List TypePart → Option (List TypePart)
  | 0, _, _, _ => none
  | levels + 1, index, parent, out =>
    (type.children index).foldlM (fun copied child =>
      type.copyInto? levels child (some out.length) copied)
      (out ++ [{ type.part index with parent }])

/-- The subtree at an index as a type of its own, if copying it comes to an end. -/
def subtype? (type : TypeTree) (index : Nat) : Option TypeTree :=
  if index < type.size then
    (type.copyInto? (outOfReach + type.size + 1) index none []).map TypeTree.mk else some empty

/-- The subtree at an index as a type of its own. -/
def subtype (type : TypeTree) (index : Nat) : TypeTree := (type.subtype? index).getD empty

end TypeTree

end CompositeGraph
