/-
  LOOKUP of members, operators and functions.

  A name is looked up from a composite outwards.  On each level it is sought in three ways: in the
  composite itself, if that is a function or a namespace; along the chain of objects from its object
  upwards; and along the chain of types from its type upwards.  A member that is marked `virtual`
  and was found on an object is sought once more from the lowest object of its chain, so that the
  most derived one counts.

  Where types are compared, finding out whether an overload is wanted need not come to an end.  Then
  `valueFunction?` and `select?` have no answer, and `valueFunction` and `select` find nothing.

    1. CALLS.     `valueFunction`: whether a function takes some arguments.
    2. MATCHING.  `select`: which of several overloads a lookup wants.
    3. MEMBERS.   `member?`: one composite, its pseudo identifiers and its imports.
    4. CHAINS.    `find?`: everything together.
    5. OPERATORS. `operator?`: the nearest declaration.
-/
import CompositeGraph.Machine

namespace CompositeGraph

/-- Which overload of a member a lookup wants. -/
inductive Matching where
  /-- The last one with a value, or else the last one. -/
  | property
  /-- The first one whose value is a function that takes the arguments. -/
  | call (arguments : List Argument)
  /-- The first one whose value names a composite. -/
  | composite
  /-- The last one whose type the given one accepts. -/
  | nominal (type : TypeTree)

/-- What a lookup found. -/
structure Resolved where
  /-- The composite it was found on. -/
  owner : Handle
  /-- The place among the overloads of the member; none for what is not a member. -/
  index : Option Nat
  overload : Overload
  /-- The function or composite that the matching picked. -/
  matching : Option Handle

/-- The parameter that takes the argument at a position: its own, or the last one if that is
    variadic. -/
def TypeTree.parameterAt? (type : TypeTree) (position : Nat) : Option (Nat × TypePart) :=
  let parameters := type.parameters
  let index :=
    match parameters[position]? with
    | some index => some index
    | none => parameters.getLast?.filter fun index => (type.part index).variadic
  index.bind fun index => (type.part? index).map fun part => (index, part)

/-- A store to look things up in. -/
structure Lookup where
  store : Store
  /-- Whether arguments must also be accepted by the types of their parameters. -/
  structural : Bool

def Machine.lookup (machine : Machine) : Lookup :=
  ⟨machine.store, machine.preferences.structuralTypeChecking⟩

namespace Lookup

variable (lookup : Lookup)

/-! ## Calls -/

/-- The type of a value.  An object is described by the composite around it that is not an object,
    any other composite by itself. -/
def valueType : Option Value → TypeTree
  | none => .empty
  | some value =>
    match value.handle? with
    | none => (Predefined.ofName value.primitive.name).elim .empty .ofPredefined
    | some handle =>
      let inout := value.primitive == .pointer
      let around := lookup.store.trail
        (fun _ composite => if composite.is .object then composite.links.scope else none)
        (some handle)
      match around.find? fun (_, composite) => !composite.is .object with
      | some (level, _) =>
        if level = handle then .ofPart { inout, reference := some handle, isSelf := true }
        else .ofPart { inout, reference := some level }
      | none => .ofPart { inout, reference := some handle }

/-- Whether a value is accepted by the type of a parameter, where types are checked. -/
def typed? (type : TypeTree) (index : Nat) (value : Option Value) : Option Bool :=
  if lookup.structural then do
    (← type.subtype? index).accepts? lookup.store.lineage (lookup.valueType value)
  else some true

/-- Whether an argument has the label of a parameter, which is asked for only where a parameter of
    its own stands. -/
def labelFits (type : TypeTree) (position : Nat) (part : TypePart) (argument : Argument) : Bool :=
  match part.label with
  | some label => type.parameters.length ≤ position || argument.label == some label
  | none => true

/-- Whether arguments fit the parameters of a function, from a position on. -/
def argumentsFit? (type : TypeTree) (position : Nat) : List Argument → Option Bool
  | [] => some true
  | argument :: rest =>
    match type.parameterAt? position with
    | none => some true
    | some (index, part) =>
      if labelFits type position part argument then do
        if ← lookup.typed? type index argument.value then argumentsFit? type (position + 1) rest
        else return false
      else some false

/-- Whether so many arguments are neither too few nor too many. -/
def countFits (type : TypeTree) (count : Nat) : Bool :=
  let parameters := type.parameters.filterMap type.part?
  let variadic := parameters.any (·.variadic)
  let required := (parameters.filter fun part => !part.variadic && part.value.isNone).length
  required ≤ count && (variadic || count ≤ parameters.length)

/-- The function a value names, if it takes as many arguments. -/
def candidate (value : Option Value) (count : Nat) : Option (Handle × Composite) := do
  let function ← value.bind Value.handle?
  let composite ← lookup.store.get? function
  if composite.is .function && countFits composite.type count then
    some (function, composite) else none

/-- The function a value names, if it takes the arguments. -/
def valueFunction? (value : Option Value) (arguments : List Argument) : Option (Option Handle) :=
  match lookup.candidate value arguments.length with
  | none => some none
  | some (function, composite) => do
    return if ← lookup.argumentsFit? composite.type 0 arguments then some function else none

/-- The same, or the first of those in a dictionary. -/
def findValueFunction? (value : Option Value) (arguments : List Argument) :
    Option (Option Handle) :=
  match value with
  | some (.dictionary entries) =>
    (Dictionary.values entries).findSomeM? fun value => lookup.valueFunction? (some value) arguments
  | value => lookup.valueFunction? value arguments

def valueFunction (value : Option Value) (arguments : List Argument) : Option Handle :=
  (lookup.valueFunction? value arguments).join

def findValueFunction (value : Option Value) (arguments : List Argument) : Option Handle :=
  (lookup.findValueFunction? value arguments).join

/-! ## Matching -/

/-- The last place in a list where something holds. -/
def lastWhere {α : Type} (holds : α → Bool) (items : List α) : Option (α × Nat) :=
  items.zipIdx.reverse.find? fun (item, _) => holds item

/-- The composite that the value of an overload names. -/
def named (overload : Overload) : Option Handle := overload.value.bind Value.handle?

/-- The place of the overload that is wanted, and what was picked. -/
def select? (overloads : List Overload) : Matching → Option (Option (Nat × Option Handle))
  | .property =>
    some (((lastWhere (·.value.isSome) overloads).or overloads.zipIdx.getLast?).map
      fun (overload, index) => (index, named overload))
  | .call arguments =>
    overloads.zipIdx.findSomeM? fun (overload, index) => do
      return (← lookup.findValueFunction? overload.value arguments).map fun function =>
        (index, some function)
  | .composite =>
    some (overloads.zipIdx.findSome? fun (overload, index) =>
      ((named overload).filter lookup.store.contains).map fun handle => (index, some handle))
  | .nominal type =>
    overloads.zipIdx.reverse.findSomeM? fun (overload, index) => do
      return if ← type.accepts? lookup.store.lineage overload.type then some (index, named overload)
        else none

def select (overloads : List Overload) (matching : Matching) : Option (Nat × Option Handle) :=
  (lookup.select? overloads matching).join

/-! ## Members of one composite -/

/-- What stands for a composite that is no member: its handle, of any type. -/
def standIn (target : Handle) : Overload :=
  { type := .ofPredefined .any, value := some (.reference target) }

def synthesized (owner target : Handle) (matching : Matching) : Option Resolved :=
  (lookup.select [standIn target] matching).map fun (_, picked) =>
    ⟨owner, none, standIn target, picked⟩

/-- The composite a pseudo identifier stands for. -/
def pseudo (composite : Composite) (identifier : String) : Option Handle :=
  if identifier == "Global" then lookup.store.handleAt? 0
  else (Slot.ofIdentifier identifier).bind composite.links.get

/-- What one composite has to say about a name. -/
inductive Answer where
  | found (resolved : Resolved)
  /-- Nothing, and its imports are not asked. -/
  | closed
  /-- Nothing itself; its imports are asked in order. -/
  | ask (imports : List Handle)

/-- An answer that is final. -/
def Answer.final : Option Resolved → Answer
  | some resolved => .found resolved
  | none => .closed

/-- Members first, then pseudo identifiers, then imports by name. -/
def answer (handle : Handle) (composite : Composite) (identifier : String)
    (matching : Matching) : Answer :=
  let overloads := (composite.members.get? identifier).getD []
  match lookup.select overloads matching with
  | some (index, picked) =>
    .final (overloads[index]?.map fun overload => ⟨handle, some index, overload, picked⟩)
  | none =>
    match lookup.pseudo composite identifier with
    | some target => .final (lookup.synthesized handle target matching)
    | none =>
      if composite.is .namespace then
        match composite.imports.get? identifier with
        | some imported => .final (lookup.synthesized handle imported matching)
        | none => .ask composite.imports.values
      else .closed

/-- Asks composites in order, each before its imports and none twice. -/
def memberAmong (identifier : String) (matching : Matching) :
    (steps : Nat) → (visited pending : List Handle) → Option Resolved
  | 0, _, _ => none
  | steps + 1, visited, pending =>
    match pending.dropWhile fun handle =>
      visited.contains handle || !lookup.store.contains handle with
    | [] => none
    | handle :: rest =>
      match lookup.store.get? handle with
      | none => none
      | some composite =>
        match lookup.answer handle composite identifier matching with
        | .found resolved => some resolved
        | .closed => memberAmong identifier matching steps (handle :: visited) rest
        | .ask imports =>
            memberAmong identifier matching steps (handle :: visited) (imports ++ rest)

/-- The member of one composite, imports included. -/
def member? (handle : Handle) (identifier : String) (matching : Matching) : Option Resolved :=
  lookup.memberAmong identifier matching lookup.store.size [] [handle]

/-! ## Chains -/

/-- The lowest object below one.  A circle is gone round once. -/
def lowestFrom : (steps : Nat) → (visited : List Handle) → Handle → Handle
  | 0, _, lowest => lowest
  | steps + 1, visited, lowest =>
    match lookup.store.link? .sub lowest with
    | none => lowest
    | some sub => if visited.contains sub then lowest else lowestFrom steps (sub :: visited) sub

def lowestSub (object : Handle) : Handle := lookup.lowestFrom (lookup.store.size + 1) [] object

/-- The first composite of a trail that has the member, with what it has. -/
def firstOn (trail : List (Handle × Composite)) (identifier : String) (matching : Matching) :
    Option (Handle × Resolved) :=
  trail.findSome? fun (level, _) =>
    (lookup.member? level identifier matching).map fun resolved => (level, resolved)

/-- The object a composite belongs to. -/
def objectOf (handle : Handle) (composite : Composite) : Option Handle :=
  if composite.is .object then some handle
  else composite.links.current.filter fun current =>
    current != handle && lookup.store.isKind .object current

/-- Looks along the chain of objects; what is virtual is looked for from the lowest object again. -/
def onObjects (handle : Handle) (composite : Composite) (identifier : String)
    (matching : Matching) : Option Resolved :=
  let start := lookup.objectOf handle composite
  match lookup.firstOn (lookup.store.slotTrail .super start) identifier matching with
  | none => none
  | some (level, found) =>
    let lowest := lookup.lowestSub level
    if found.overload.hasModifier "virtual" && lowest != level then
      (lookup.firstOn (lookup.store.slotTrail .super (some lowest)) identifier matching).map (·.2)
    else some found

/-- Looks along the chain of types. -/
def onTypes (handle : Handle) (composite : Composite) (identifier : String) (matching : Matching) :
    Option Resolved :=
  let start := if composite.is .object then composite.links.currentType else some handle
  (lookup.firstOn (lookup.store.slotTrail .superType start) identifier matching).map (·.2)

/-- Looks on one level. -/
def onLevel (handle : Handle) (composite : Composite) (identifier : String) (matching : Matching) :
    Option Resolved :=
  let own :=
    if composite.is .function || composite.is .namespace then
      lookup.member? handle identifier matching
    else none
  own.or ((lookup.onObjects handle composite identifier matching).or
    (lookup.onTypes handle composite identifier matching))

/-- Looks a member up from a composite outwards, or on its own level only. -/
def find? (start : Handle) (identifier : String) (matching : Matching) (internal : Bool) :
    Option Resolved :=
  let levels := lookup.store.slotTrail .scope (some start)
  (if internal then levels.take 1 else levels).findSome? fun (handle, composite) =>
    lookup.onLevel handle composite identifier matching

/-! ## Operators -/

/-- The nearest declaration of an operator with a modifier; on one level, the last. -/
def operator? (start : Handle) (operator modifier : String) : Option Operator :=
  (lookup.store.slotTrail .scope (some start)).findSome? fun (_, composite) =>
    (composite.operators.get? operator).bind fun operators =>
      operators.reverse.find? fun operator => operator.modifiers.contains modifier

end Lookup

end CompositeGraph
