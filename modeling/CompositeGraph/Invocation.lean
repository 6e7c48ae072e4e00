/-
  INVOCATION of functions.

  A call runs in a fresh namespace inside the function, on the levels of the object it initializes
  or of the function itself.  An initializer first finds the object it works on, or builds a chain
  of objects, one for each class of the lineage.

    1. BINDING.    Arguments to parameters.
    2. CALLS.      `callNow`.
    3. PLANS.      What a call expression calls: a function, or an initializer of a composite.
    4. OBJECTS.    The object an initializer works on.
-/
import CompositeGraph.Execution
import CompositeGraph.Natives

namespace CompositeGraph.Run

variable (rules : Rules)

/-! ## Binding -/

/-- The name of what has only a position. -/
def positional (position : Nat) : String := "$" ++ toString position

/-- Binds a name in the namespace of a call. -/
def bindName (space : Handle) (name : String) (type : TypeTree)
    (value : Option Value) : Run Unit := do
  let _ ← setMember rules space name { type, value } .append

/-- The value of a parameter, and how many arguments are bound with it. -/
def parameterValue (space : Handle) (arguments : List Argument) (bound position : Nat)
    (part : TypePart) : Flow (Option Value × Nat) := do
  if part.variadic then
    let rest := (arguments.drop position).map (·.value)
    return (some (.dictionary (Dictionary.ofValues rest)), arguments.length)
  match arguments[position]?, part.value with
  | some argument, _ => return (argument.value, position + 1)
  | none, some default => return (← rules.eval default space, bound)
  | none, none => return (none, bound)

/-- Binds parameters from a position on; gives how many arguments are bound. -/
def bindParametersFrom (space : Handle) (type : TypeTree) (arguments : List Argument) :
    (bound position : Nat) → List Nat → Flow Nat
  | bound, _, [] => return bound
  | bound, position, index :: rest => do
    let part := type.part index
    let (value, bound) ← parameterValue rules space arguments bound position part
    bindName rules space (part.identifier.getD (positional position)) (type.subtype index) value
    bindParametersFrom space type arguments bound (position + 1) rest

/-- Binds the parameters of a function; arguments left over are bound by their position. -/
def bindParameters (space : Handle) (type : TypeTree) (arguments : List Argument) : Flow Unit := do
  let bound ← bindParametersFrom rules space type arguments 0 0 type.parameters
  (arguments.zipIdx.drop bound).forM fun (argument, position) =>
    (bindName rules space (positional position) .anything argument.value : Run Unit)

/-! ## Calls -/

/-- Binds `caller`, if there is one. -/
def bindCaller (space : Handle) (caller : Option Handle) : Run Unit :=
  caller.forM fun caller =>
    bindName rules space "caller" (.ofPart { predefined := some .any, nillable := true })
      (some (.reference caller))

/-- Runs the statements of its class in an object that is being initialized. -/
def runClassStatements (object : Handle) : Flow Unit := do
  let store ← store
  match (store.link? .currentType object).bind store.get? with
  | some classComposite =>
    let _ ← withScope rules ⟨object, none, none⟩ false
      (executeStatements rules object classComposite.statements.nodes)
  | none => return

/-- Binds `caller` and the parameters, runs the statements of the class in an object that is being
    initialized, and then the statements of the function. -/
def enterFunction (space : Handle) (type : TypeTree) (statements : Statements) (call : Call)
    (initializing : Option Handle) : Flow (Option Value) := do
  bindCaller rules space call.caller
  bindParameters rules space type call.arguments
  initializing.forM (runClassStatements rules)
  executeStatements rules space statements.nodes

/-- What a call comes to once its frame is gone.  A throw or an abort goes on in the frame of the
    caller; anything else ends here. -/
def leaveFunction (call : Call) (title : String) (type : TypeTree) (transfer : Option Transfer) :
    Flow (Option Value) :=
  match transfer with
  | none => return none
  | some transfer =>
    match transfer.kind with
    | some .throw => do
      if type.throws = .absent then
        report .warning call.node
          ("Function \"" ++ title ++ "\" threw without being declared as throwing.")
      setTransfer rules transfer.value (some .throw)
      Flow.unwind
    | some .abort => do
      setTransfer rules none (some .abort)
      Flow.unwind
    | _ => return transfer.value

/-- An object that was being created is so no longer. -/
def settle (object : Handle) : Run Unit :=
  modifyComposite object fun composite =>
    if composite.life = .creating then { composite with life := .idle } else composite

/-- Calls a function: a native one directly, any other in a namespace, a scope and
    a frame of its own. -/
def callNow (call : Call) : Flow (Option Value) := do
  let machine ← get
  if machine.preferences.callStackSize ≤ machine.callDepth then
    report .error none ("Maximum call stack size exceeded.\n" ++ machine.callsString)
    setTransfer rules none (some .abort)
    Flow.unwind
  else
  match machine.store.get? call.function with
  | none => return none
  | some composite =>
    match composite.statements with
    | .native native => callNative native call.arguments
    | statements =>
      let title := machine.titleOf call.function
      let initializing := call.levels.filter fun object =>
        match machine.store.get? object with
        | some composite => composite.is .object && composite.life == .creating
        | none => false
      let space ← createNamespace rules (some ("Call<" ++ title ++ ">")) (some call.function)
        (.copied (call.levels.getD call.function))
      pushScope ⟨space, some call.function, call.node.map machine.locationOf⟩
      pushFrame
      let _ ← (enterFunction rules space composite.type statements call initializing).attempt
      (initializing.forM settle : Run Unit)
      popScope rules true
      leaveFunction rules call title composite.type (← popFrame)

/-! ## Plans -/

/-- What a call expression names. -/
inductive Callee where
  /-- A member, looked up from a composite. -/
  | member (composite : Option Handle) (identifier : String) (internal : Bool)
  /-- A value. -/
  | value (value : Option Value)

/-- What a call will call. -/
structure Plan where
  function : Option Handle
  /-- The type that the function belongs to. -/
  selfComposite : Option Handle
  initializer : Bool

end CompositeGraph.Run

namespace CompositeGraph.Machine

open Run (Callee Plan)

variable (machine : Machine)

/-- The plan for a function that was found or not. -/
def planFor (function base : Option Handle) (namedInit : Bool) : Plan :=
  let composite := function.bind machine.store.get?
  let selfComposite := (composite.bind (·.links.currentType)).or base
  let initializing := namedInit || (composite.bind (·.title)) == some "init"
  let instantiable := ((selfComposite.bind machine.store.kind?).map Kind.instantiable).getD false
  ⟨function, selfComposite, initializing && instantiable⟩

/-- The composite whose initializer is meant; an object stands for its type. -/
def initialized (handle : Handle) : Handle :=
  match machine.store.get? handle with
  | some composite =>
    if composite.is .object then composite.links.currentType.getD handle else handle
  | none => handle

/-- The plan of a call.  If no function takes the arguments, an initializer of the composite that
    the callee names may. -/
def plan (callee : Callee) (arguments : List Argument) : Plan :=
  let lookup := machine.lookup
  let direct :=
    match callee with
    | .member composite identifier internal =>
      let function := composite.bind fun composite =>
        (lookup.find? composite identifier (.call arguments) internal).bind (·.matching)
      machine.planFor function composite (identifier == "init")
    | .value value => machine.planFor (lookup.findValueFunction value arguments) none false
  if direct.function.isSome || direct.initializer then direct
  else
    let named :=
      match callee with
      | .member composite identifier internal => composite.bind fun composite =>
        (lookup.find? composite identifier .composite internal).bind (·.matching)
      | .value value => value.bind Value.handle?
    let composite := named.map machine.initialized
    let function := composite.bind fun composite =>
      (lookup.find? composite "init" (.call arguments) true).bind (·.matching)
    machine.planFor function composite true

/-- The object under creation that an initializer of a class called from a scope works on: the first
    of that class up the chain of the scope's object. -/
def delegated? (scope classHandle : Handle) : Option Handle :=
  let start := (machine.store.link? .current scope).filter (machine.store.isKind .object)
  let ofClass := (machine.store.slotTrail .super start).find? fun (_, composite) =>
    composite.links.currentType == some classHandle
  (ofClass.filter fun (_, composite) => composite.life == .creating).map (·.1)

end CompositeGraph.Machine

namespace CompositeGraph.Run

variable (rules : Rules)

/-! ## Objects -/

/-- Binds generic arguments to the generic parameters of a class on its object. -/
def bindGenerics (object classHandle : Handle) (generics : List TypeTree) : Run Unit := do
  let parameters :=
    (((← store).get? classHandle).map fun composite => composite.type.genericParameters).getD []
  (parameters.zip generics).forM fun (parameter, argument) =>
    match parameter.identifier with
    | some identifier =>
        bindName rules object identifier (.ofPredefined .type) (some (.type argument))
    | none => return

/-- Builds objects for a class and those above it, each linked to the one before;
    gives the first. -/
def buildChain (generics : List TypeTree) :
    (steps : Nat) → (visited : List Handle) → (derived level : Option Handle) → Run (Option Handle)
  | 0, _, _, _ => return none
  | _ + 1, _, _, none => return none
  | steps + 1, visited, derived, some level => do
    let instantiable := (((← store).kind? level).map Kind.instantiable).getD false
    if !instantiable || visited.contains level then return none
    let object ← createObject rules none level derived
    match derived with
    | some derived => setSuperLevels rules derived (some object)
    | none => bindGenerics rules object level generics
    let above := ((← store).get? level).bind fun composite => composite.type.inherited?
    let _ ← buildChain generics steps (level :: visited) (some object) above
    return some object

/-- The object an initializer of a class works on.  With generic arguments it is
    always a new one. -/
def initializerObject (scope classHandle : Handle) (generics : List TypeTree) :
    Run (Option Handle) := do
  let machine ← get
  let delegated := if generics.isEmpty then machine.delegated? scope classHandle else none
  match delegated with
  | some object => return some object
  | none => buildChain rules generics (← store).size [] none (some classHandle)

/-- Carries a plan out from a scope. -/
def invoke (node : Node) (scope : Handle) (plan : Plan) (arguments : List Argument)
    (generics : List TypeTree) : Flow (Option Value) := do
  match plan.function with
  | none =>
    let sort := if plan.initializer then "Initializer" else "Function"
    report .error (some node) (sort ++ " with specified signature wasn't found.")
    return none
  | some function =>
    let caller := (← get).callerOf scope
    let levels ←
      match plan.initializer, plan.selfComposite with
      | true, some classHandle => initializerObject rules scope classHandle generics
      | _, _ => pure none
    rules.call { node := some node, function, arguments, levels, caller }

end CompositeGraph.Run
