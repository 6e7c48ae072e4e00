/-
  PLACES: what can be assigned to.

  A place is a member of a composite, or an entry of a dictionary that another place holds.  Writing
  an entry writes the whole dictionary back to where it is held.

    1. NAMING.   `placeOf`: the place an expression names.
    2. READING.  `Machine.readPlace`, `Machine.placeExists`.
    3. WRITING.  `writePlace`, with the observers of a member run around it.
-/
import CompositeGraph.Execution

namespace CompositeGraph

/-- An assignable place. -/
inductive Place where
  /-- A member, looked up from a composite. -/
  | member (composite : Handle) (identifier : String) (internal : Bool)
  /-- An entry of the dictionary in a place. -/
  | entry (base : Place) (key : Value)

namespace Machine

variable (machine : Machine)

/-- The member that a place stands for. -/
def placeMember? (composite : Handle) (identifier : String) (internal : Bool) : Option Resolved :=
  machine.lookup.find? composite identifier .property internal

/-- The value in a place. -/
def readPlace : Place → Option Value
  | .member composite identifier internal =>
    (machine.placeMember? composite identifier internal).bind (·.overload.value)
  | .entry base key =>
    match readPlace base with
    | some (.dictionary entries) => Dictionary.get? entries key
    | _ => none

/-- Whether writing to the place would change a member that is there. -/
def placeExists : Place → Bool
  | .member composite identifier internal =>
    ((machine.placeMember? composite identifier internal).bind (·.index)).isSome
  | .entry base _ =>
    match machine.readPlace base with
    | some (.dictionary _) => true
    | _ => false

end Machine

namespace Run

variable (rules : Rules)

/-! ## Naming -/

/-- The value of a link of a chain that may be missing. -/
def evalLinkOf (node : Option Node) (scope : Handle) : Flow (Option Value) :=
  match node with
  | some node => rules.evalLink node scope
  | none => return none

/-- The name of a member in a chain: an identifier, or a string that the node evaluates to. -/
def memberName (member : Option Node) (scope : Handle) : Flow (Option String) := do
  match member with
  | none => return none
  | some node =>
    match node.identifier? with
    | some identifier => return some identifier
    | none =>
      match ← rules.eval node scope with
      | some (.string identifier) => return some identifier
      | _ => return none

/-- The place an expression names, if it names one. -/
def placeOf (scope : Handle) : Node → Flow (Option Place)
  | .mk _ (.identifier name) => return some (.member scope name false)
  | .mk _ (.chain composite member) => do
    let base ← evalLinkOf rules composite scope
    match (← get).compositeOf base with
    | none => return none
    | some composite =>
      return (← memberName rules member scope).map fun identifier =>
        .member composite identifier true
  | .mk _ (.subscript (some composite) _ arguments _) => do
    match ← placeOf scope composite with
    | none => return none
    | some base =>
      let key ← evalChild rules arguments.head? scope
      return key.map fun key => .entry base key
  | .mk _ (.parenthesized (some value)) => placeOf scope value
  | _ => return none

/-! ## Writing -/

/-- Runs the observers of a name, each with a value. -/
def runObservers (node : Node) (observers : List Observer) (identifier : String)
    (value : Option Value) : Flow Unit :=
  (observers.filter fun observer => observer.identifier == identifier).forM fun observer => do
    let _ ← rules.call
      { node := some node, function := observer.function, arguments := [{ value }] }

/-- Replaces the value of a member that was looked up, and runs its observers. -/
def writeMember (node : Node) (resolved : Resolved) (identifier : String) (value : Option Value) :
    Flow Bool := do
  match resolved.index with
  | none => return false
  | some index =>
    let observers := resolved.overload.observers
    runObservers rules node observers "willSet" value
    let _ ← setMember rules resolved.owner identifier { resolved.overload with value }
      (.replace resolved.owner (some index))
    runObservers rules node observers "didSet" resolved.overload.value
    return true

/-- Replaces the value in a place; false if there is nothing to write to. -/
def writePlace (node : Node) : Place → Option Value → Flow Bool
  | .member composite identifier internal, value => do
    match (← get).placeMember? composite identifier internal with
    | none => return false
    | some resolved => writeMember rules node resolved identifier value
  | .entry base key, value => do
    match (← get).readPlace base with
    | some (.dictionary entries) =>
      writePlace node base (some (.dictionary (Dictionary.insert key value entries)))
    | _ => return false

def notAssignable : String :=
  "Cannot assign to anything but a valid identifier or chain expression."

/-- Writes to a place and gives the value, or reports that it cannot be written. -/
def assign (node : Node) (place : Place) (value : Option Value) : Flow (Option Value) := do
  if ← writePlace rules node place value then return value
  report .warning (some node) notAssignable
  return none

def notDeletable : String :=
  "Cannot delete anything but a valid identifier, chain or subscript expression."

/-- Takes out what a place holds; false if there is nothing to take out. -/
def deletePlace (node : Node) : Option Place → Flow Bool
  | none => return false
  | some (.member composite identifier internal) => do
    match (← get).placeMember? composite identifier internal with
    | some resolved =>
      if resolved.index.isNone then return false
      removeMember rules resolved.owner identifier
      return true
    | none => return false
  | some (.entry base key) => do
    match (← get).readPlace base with
    | some (.dictionary entries) =>
      if Dictionary.removes entries key then
        writePlace rules node base (some (.dictionary (Dictionary.remove entries key)))
      else return false
    | _ => return false

/-- Deletes what an expression names, or reports that it names nothing of the sort. -/
def deleteExpression (node : Node) (value : Option Node) (scope : Handle) :
    Flow (Option Value) := do
  let place ←
    match value with
    | some value => placeOf rules scope value
    | none => pure none
  if !(← deletePlace rules node place) then report .warning (some node) notDeletable
  return none

end Run

end CompositeGraph
