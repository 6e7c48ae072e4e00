/-
  THE MACHINE: everything a run changes.

    1. STATE.    `Machine`: store, scopes, frames, reports, and what a run is given.
    2. RUNS.     `Run α` changes the machine and gives an `α`; it breaks off when its budget of
                 steps is used up.  `Flow α` may besides unwind: an explicit transfer is then under
                 way in the innermost frame, and whoever asked has to stop.
    3. RULES.    `Rules`: evaluating a node, calling a function and destroying a composite call for
                 each other.  Each operation of the machine takes these rules as a parameter, so
                 that it can be defined and reasoned about on its own; they are tied
                 together at the end.
-/
import CompositeGraph.Preferences
import CompositeGraph.Store.Walk
import CompositeGraph.Transfer

namespace CompositeGraph

/-- An entry of the scope stack. -/
structure Scope where
  /-- The composite that names are looked up in. -/
  namespaceHandle : Handle
  /-- The function whose call opened the scope. -/
  function : Option Handle := none
  /-- Where it was called. -/
  location : Option Location := none
  deriving DecidableEq, Repr

/-- The state of a run. -/
structure Machine where
  store : Store := .empty
  /-- The scopes, the innermost first. -/
  scopes : List Scope := []
  control : Control := {}
  preferences : Preferences := {}
  reports : Reports := {}
  tokens : Array Token := #[]

namespace Machine

/-- A machine with the composites of an earlier run. -/
def withStore (store : Store) (preferences : Preferences) : Machine :=
  { store, preferences, reports := .startingAt preferences.allowedReportLevel }

/-- A machine that has done nothing. -/
def fresh (preferences : Preferences) : Machine := withStore .empty preferences

/-- Forgets everything but the preferences. -/
def reset (machine : Machine) : Machine := fresh machine.preferences

/-- The outermost namespace, if there is one. -/
def global? (machine : Machine) : Option Handle := machine.store.handleAt? 0

/-- The namespace of the innermost scope. -/
def topScope? (machine : Machine) : Option Handle := machine.scopes.head?.map (·.namespaceHandle)

/-- The number of function calls under way. -/
def callDepth (machine : Machine) : Nat := (machine.scopes.filter (·.function.isSome)).length

/-- Composites that are kept whatever retains them: those held by transfers, the outermost namespace
    and the namespace of the innermost scope. -/
def roots (machine : Machine) : List Handle :=
  machine.control.handles ++ machine.global?.toList ++ machine.topScope?.toList

/-- Whether a composite is kept: a root, or retained by one through any number of others. -/
def isRetained (machine : Machine) (handle : Handle) : Bool :=
  machine.store.reaches machine.roots handle

/-- Whether a composite is linked to another. -/
def retains (machine : Machine) (retaining retained : Handle) : Bool :=
  match machine.store.get? retaining with
  | some composite => composite.isAlive && composite.references.contains retained
  | none => false

/-- The location of the token a node starts with. -/
def locationOf (machine : Machine) (node : Node) : Location :=
  match machine.tokens[node.range.start]? with
  | some token => token.location
  | none => {}

/-- The title of a composite, or its handle if it has none. -/
def titleOf (machine : Machine) (handle : Handle) : String :=
  ((machine.store.get? handle).bind (·.title)).getD handle.display

/-- The composite a value names, unless the handle is stale. -/
def compositeOf (machine : Machine) (value : Option Value) : Option Handle :=
  (value.bind Value.handle?).filter machine.store.contains

/-- The composite that a scope's own type is, which calls made from it name as their caller. -/
def callerOf (machine : Machine) (scope : Handle) : Option Handle :=
  machine.store.link? .currentType scope

/-- Records a diagnostic on behalf of a node. -/
def report (machine : Machine) (level : Level) (node : Option Node) (message : String) : Machine :=
  let reports :=
    match node with
    | some node =>
      machine.reports.push level node.range.start (machine.locationOf node)
        (node.typeName ++ " -> " ++ message)
    | none => machine.reports.push level 0 {} message
  { machine with reports }

end Machine

/-! ## Runs -/

/-- Why a run breaks off without a result. -/
inductive Halt where
  /-- Its budget of steps is used up. -/
  | exhausted
  /-- It is watched, and the watch does not let its next step pass. -/
  | refused
  deriving DecidableEq, Repr

/-- A run that always comes to a result, unless it is broken off. -/
abbrev Run := StateT Machine (Except Halt)

/-- The mark of an explicit transfer under way. -/
structure Unwind where
  deriving DecidableEq, Repr

/-- A run that may unwind. -/
abbrev Flow := ExceptT Unwind Run

namespace Run

/-- The budget is used up. -/
def exhausted {α : Type} : Run α := fun _ => .error .exhausted

/-- The store as it is. -/
def store : Run Store := return (← get).store

def modifyStore (change : Store → Store) : Run Unit :=
  modify fun machine => { machine with store := change machine.store }

/-- Changes the composite a handle names. -/
def modifyComposite (handle : Handle) (change : Composite → Composite) : Run Unit :=
  modifyStore fun store => store.modify handle change

/-- Changes the frames and gives what came out of them. -/
def withControl (change : Control → Option Transfer × Control) : Run (Option Transfer) :=
  modifyGet fun machine =>
    let (transfer, control) := change machine.control
    (transfer, { machine with control })

def pushFrame : Run Unit := modify fun machine => { machine with control := machine.control.push }

def popFrame : Run (Option Transfer) := withControl Control.pop

def pushScope (scope : Scope) : Run Unit :=
  modify fun machine => { machine with scopes := scope :: machine.scopes }

def report (level : Level) (node : Option Node) (message : String) : Run Unit :=
  modify fun machine => machine.report level node message

end Run

namespace Flow

/-- Stops, leaving the transfer under way to whoever asked. -/
def unwind {α : Type} : Flow α := throw ⟨⟩

/-- Whether a flow unwound, and what it gave otherwise. -/
def outcome {α : Type} (flow : Flow α) : Run (Except Unwind α) := flow.run

/-- The same within a flow, which goes on however that ended. -/
def attempt {α : Type} (flow : Flow α) : Flow (Except Unwind α) := ExceptT.lift flow.outcome

end Flow

/-! ## Rules -/

/-- An argument of a call. -/
structure Argument where
  label : Option String := none
  value : Option Value := none

/-- A call with everything it needs. -/
structure Call where
  /-- The node that asks for it. -/
  node : Option Node := none
  function : Handle
  arguments : List Argument := []
  /-- The composite whose level the call runs on, if not the function's own. -/
  levels : Option Handle := none
  /-- What is bound as `caller`. -/
  caller : Option Handle := none

/-- What the operations of the machine need of each other. -/
structure Rules where
  /-- How often a loop may go round. -/
  budget : Nat
  /-- The value of a node in a scope. -/
  eval : Node → Handle → Flow (Option Value)
  /-- The same for a link of a chain: an end at nil goes on to the whole chain. -/
  evalLink : Node → Handle → Flow (Option Value)
  /-- The result of a call. -/
  call : Call → Flow (Option Value)
  /-- Ends the life of a composite. -/
  destroy : Handle → Run Unit

end CompositeGraph
