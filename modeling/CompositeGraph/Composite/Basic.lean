/-
  COMPOSITES: what classes, enumerations, functions, namespaces, objects, protocols and structures
  are while a program runs.

  A composite is linked to others by its slots, its type, its imports, the values of its members and
  its observers.  The other way round it lists its retainers: the composites that are linked to it.

    1. LINKS.       `Slot` and `Links`, the seven slots and the retainers.
    2. MEMBERS.     `Overload`, `Operator`, `Observer`, `Statements`.
    3. COMPOSITES.  `Composite`, and `Composite.references`, everything it is linked to.
-/
import CompositeGraph.Assoc
import CompositeGraph.Value.Basic

namespace CompositeGraph

/-- The life of a composite. -/
inductive Life where
  /-- An object whose initializer has not run to its end. -/
  | creating
  | idle
  | destroyed
  deriving DecidableEq, Repr

/-! ## Links -/

/-- The places where a composite names another. -/
inductive Slot where
  /-- The composite one level up a chain of objects. -/
  | super
  /-- The type one level up. -/
  | superType
  /-- The composite on its own level. -/
  | current
  /-- The type on its own level. -/
  | currentType
  /-- The object one level down. -/
  | sub
  /-- The type one level down. -/
  | subType
  /-- The composite around it. -/
  | scope
  deriving DecidableEq, Repr

namespace Slot

/-- The slots that say on which level a composite stands. -/
def levels : List Slot := [.super, .superType, .current, .currentType, .sub, .subType]

/-- All slots. -/
def all : List Slot := levels ++ [.scope]

/-- The name of a slot. -/
def name : Slot → String
  | .super => "super"
  | .superType => "Super"
  | .current => "self"
  | .currentType => "Self"
  | .sub => "sub"
  | .subType => "Sub"
  | .scope => "scope"

/-- The level slot that an identifier of a program stands for. -/
def ofIdentifier (identifier : String) : Option Slot := levels.find? fun slot =>
    slot.name == identifier

/-- The slot of a name. -/
def ofName (name : String) : Option Slot := all.find? fun slot => slot.name == name

end Slot

/-- The slots of a composite, and the composites that retain it in the order they came. -/
structure Links where
  super : Option Handle := none
  superType : Option Handle := none
  current : Option Handle := none
  currentType : Option Handle := none
  sub : Option Handle := none
  subType : Option Handle := none
  scope : Option Handle := none
  retainers : List Handle := []
  deriving DecidableEq, Repr, Inhabited

namespace Links

def get (links : Links) : Slot → Option Handle
  | .super => links.super
  | .superType => links.superType
  | .current => links.current
  | .currentType => links.currentType
  | .sub => links.sub
  | .subType => links.subType
  | .scope => links.scope

def set (links : Links) (slot : Slot) (value : Option Handle) : Links :=
  match slot with
  | .super => { links with super := value }
  | .superType => { links with superType := value }
  | .current => { links with current := value }
  | .currentType => { links with currentType := value }
  | .sub => { links with sub := value }
  | .subType => { links with subType := value }
  | .scope => { links with scope := value }

@[simp] theorem get_set_self (links : Links) (slot : Slot) (value : Option Handle) :
    (links.set slot value).get slot = value := by cases slot <;> rfl

theorem get_set_ne (links : Links) {slot other : Slot} (value : Option Handle) (h : other ≠ slot) :
    (links.set slot value).get other = links.get other := by
  cases slot <;> cases other <;> first | rfl | exact absurd rfl h

end Links

/-! ## Members -/

/-- A function run when something happens to what it is attached to. -/
structure Observer where
  identifier : String
  function : Handle
  deriving DecidableEq, Repr

/-- One of the meanings of a member. -/
structure Overload where
  modifiers : List String := []
  type : TypeTree
  value : Option Value := none
  observers : List Observer := []

namespace Overload

def hasModifier (overload : Overload) (modifier : String) : Bool :=
  overload.modifiers.contains modifier

/-- Composites that the type, the value and the observers name. -/
def references (overload : Overload) : List Handle :=
  overload.type.references ++ Value.optionHandles overload.value ++
    overload.observers.map (·.function)

end Overload

/-- Which of two equal operators binds first. -/
inductive Associativity where
  | left
  | right
  | none
  deriving DecidableEq, Repr

/-- A declared operator. -/
structure Operator where
  modifiers : List String
  associativity : Associativity
  precedence : Int64
  deriving DecidableEq, Repr

/-- Functions that the machine itself provides. -/
inductive Native where
  | print
  | getComposite
  | getCallsString
  deriving DecidableEq, Repr

namespace Native

def all : List Native := [.print, .getComposite, .getCallsString]

/-- The name a native function is declared under. -/
def title : Native → String
  | .print => "print"
  | .getComposite => "getComposite"
  | .getCallsString => "getCallsString"

def ofTitle (title : String) : Option Native := all.find? fun native => native.title == title

end Native

/-- What a composite runs. -/
inductive Statements where
  | none
  | block (nodes : List Node)
  | native (native : Native)

/-- The nodes to run; none for a native function. -/
def Statements.nodes : Statements → List Node
  | .block nodes => nodes
  | _ => []

/-! ## Composites -/

/-- A composite. -/
structure Composite where
  title : Option String
  links : Links
  life : Life
  type : TypeTree
  statements : Statements
  imports : Assoc Handle
  operators : Assoc (List Operator)
  members : Assoc (List Overload)
  observers : List Observer

namespace Composite

/-- A fresh composite.  Objects are still to be created, all others are idle. -/
def fresh (title : Option String) (type : TypeTree) : Composite :=
  { title, links := {}, life := if type.kind? = some .object then .creating else .idle, type,
    statements := .none, imports := .empty, operators := .empty, members :=
    .empty, observers := [] }

def kind? (composite : Composite) : Option Kind := composite.type.kind?

def is (composite : Composite) (kind : Kind) : Bool := composite.kind? == some kind

def isAlive (composite : Composite) : Bool := composite.life != .destroyed

/-- The slots that retain what they name.  `Self` is not among them: it says what a composite is. -/
def retainingSlots : List Slot := Slot.all.filter (· != .currentType)

/-- Composites named by the members. -/
def memberReferences (members : Assoc (List Overload)) : List Handle :=
  members.entries.flatMap fun (_, overloads) => overloads.flatMap Overload.references

/-- Everything the composite is linked to, retainers aside. -/
def references (composite : Composite) : List Handle :=
  retainingSlots.filterMap composite.links.get ++
    composite.type.references ++
    composite.imports.values ++
    memberReferences composite.members ++
    composite.observers.map (·.function)

/-- The composite with a slot set. -/
def setSlot (composite : Composite) (slot : Slot) (value : Option Handle) : Composite :=
  { composite with links := composite.links.set slot value }

/-- The composite with its retainers changed. -/
def mapRetainers (composite : Composite) (change : List Handle → List Handle) : Composite :=
  { composite with links := { composite.links with retainers := change composite.links.retainers } }

end Composite

end CompositeGraph
