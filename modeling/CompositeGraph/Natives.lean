/-
  NATIVE FUNCTIONS: those the machine itself provides in the outermost namespace.
-/
import CompositeGraph.Composite.Codec
import CompositeGraph.Creation

namespace CompositeGraph

namespace Native

/-- A part that names a predefined type. -/
def typed (predefined : Predefined) (nillable : Bool) (part : TypePart) : TypePart :=
  { part with predefined := some predefined, nillable }

/-- `print` takes anything and gives nothing in particular, `getComposite` takes an integer and
    gives anything, `getCallsString` takes nothing and gives a string. -/
def signature (native : Native) : TypeTree :=
  let function := TypeTree.ofPart
    { predefined := some (.composite .function), awaits := some .absent, throws := some .absent }
  let (parameter, result) : Option (Predefined × Bool) × (Predefined × Bool) :=
    match native with
    | .print => (some (.wildcard, true), (.wildcard, true))
    | .getComposite => (some (.integer, false), (.any, true))
    | .getCallsString => (none, (.string, false))
  let function :=
    match parameter with
    | none => function
    | some (predefined, nillable) =>
      let (function, parameters) := function.collect (some 0) none .parameters
      (function.push (some parameters)).adjust function.size fun part =>
        { typed predefined nillable part with identifier := some "value" }
  (function.push (some 0)).adjust function.size (typed result.1 result.2)

end Native

namespace Machine

/-- The text of a value as a program shows it: plain values as they are, a composite that is there
    and everything else as JSON. -/
def valueString (machine : Machine) : Option Value → String
  | none => "nil"
  | some value =>
    match value.primitive with
    | .boolean | .integer | .float | .string => value.display
    | _ =>
      match (machine.compositeOf (some value)).bind machine.store.get? with
      | some composite => composite.toJson.render
      | none => value.toJson.render

/-- A call under way, with its number. -/
def callLine (machine : Machine) (number : Nat) (function : Handle) (location : Option Location) :
    String :=
  let composite := machine.store.get? function
  let title := composite.bind (·.title)
  let owner :=
    match title, composite.bind (·.links.currentType) with
    | some _, some owner =>
      if machine.store.contains owner then machine.titleOf owner ++ "." else ""
    | _, _ => ""
  let place :=
    match location with
    | some location => ":" ++ toString (location.line + 1) ++ ":" ++ toString (location.column + 1)
    | none => ""
  toString number ++ ": " ++ owner ++ title.getD function.display ++ place

/-- The eight innermost calls under way, the innermost first. -/
def callsString (machine : Machine) : String :=
  let calls := machine.scopes.filterMap fun scope => scope.function.map fun function =>
    (function, scope.location)
  "\n".intercalate ((calls.take 8).zipIdx.map fun ((function, location), number) =>
    machine.callLine number function location)

end Machine

namespace Run

variable (rules : Rules)

/-- Declares the native functions, in place of those of an earlier run. -/
def declareNatives (global : Handle) : Run Unit :=
  Native.all.forM fun native => do
    let function ← createFunction rules (some native.title) (.native native) (some global)
    setType rules function native.signature
    let overload : Overload := { type := .ofKind .function, value := some (.reference function) }
    let _ ← setMember rules global native.title overload .first

/-- Runs a native function. -/
def callNative (native : Native) (arguments : List Argument) : Run (Option Value) := do
  let machine ← get
  let argument := arguments.head?.bind (·.value)
  match native with
  | .print =>
    set { machine with reports := machine.reports.print (machine.valueString argument) }
    return none
  | .getComposite =>
    match argument with
    | some (.integer index) =>
      if index.toInt < 0 then return none
      return (machine.store.handleAt? index.toInt.toNat).map .reference
    | _ => return none
  | .getCallsString => return some (.string machine.callsString)

end Run

end CompositeGraph
