/-
  EXPRESSIONS: literals, identifiers, chains, calls and subscripts.
-/
import CompositeGraph.Evaluation.Places
import CompositeGraph.Evaluation.Types
import CompositeGraph.Invocation

namespace CompositeGraph

/-! ## Literals -/

namespace Literal

/-- The text of a literal as it was written. -/
def display : Literal → String
  | .text value => value
  | .boolean value => if value then "true" else "false"
  | .integer value => toString value.toInt
  | .float value => Decimal.Layout.display.write value

/-- The text without the marks that group its digits. -/
def ungrouped (text : String) : String := String.ofList (text.toList.filter (· != '_'))

/-- The value of an integer literal.  Text that is too large for an integer is read as a float. -/
def integerValue : Literal → Option Value
  | .integer value => some (.integer value)
  | .float value => some (.float value)
  | .boolean value => some (.integer (if value then 1 else 0))
  | .text written =>
    match Decimal.readInteger (ungrouped written) with
    | some value => some (.integer value)
    | none => (Decimal.readFloat (ungrouped written)).map .float

/-- The value of a float literal. -/
def floatValue : Literal → Option Value
  | .integer value => some (.float value.toFloat)
  | .float value => some (.float value)
  | .boolean value => some (.float (if value then 1.0 else 0.0))
  | .text written => (Decimal.readFloat (ungrouped written)).map .float

/-- The value of a literal of a sort. -/
def value (literal : Literal) : LiteralSort → Option Value
  | .boolean => some (.boolean (literal.display == "true"))
  | .integer => literal.integerValue
  | .float => literal.floatValue

end Literal

namespace Run

variable (rules : Rules)

/-- The value of what a name stands for. -/
def identifier (node : Node) (name : String) (scope : Handle) : Run (Option Value) := do
  match (← get).lookup.find? scope name .property false with
  | some resolved => return resolved.overload.value
  | none =>
    report .warning (some node) ("Identifier \"" ++ name ++ "\" wasn't found.")
    return none

/-- The text of a string literal: segments as they are, expressions as they are shown. -/
def stringSegments (scope : Handle) : List Node → Flow String
  | [] => return ""
  | segment :: rest => do
    let text ←
      match segment.form with
      | .stringSegment text => pure text
      | _ => do
        let value ← rules.eval segment scope
        pure ((← get).valueString value)
    return text ++ (← stringSegments scope rest)

/-- Hands a collection literal to what is in scope under a name and takes it, if anything does. -/
def wrapLiteral (node : Node) (name : String) (literal : Value) (scope : Handle) :
    Flow (Option Value) := do
  let arguments : List Argument := [{ value := some literal }]
  let plan := (← get).plan (.member (some scope) name false) arguments
  if plan.function.isNone then return some literal
  invoke rules node scope plan arguments []

/-- The values of array elements; those that are nil are left out. -/
def elements (scope : Handle) : List Node → Flow (List (Option Value))
  | [] => return []
  | node :: rest => do
    let value ← rules.eval node scope
    let others ← elements scope rest
    return if value.isSome then value :: others else others

def arrayLiteral (node : Node) (values : List Node) (scope : Handle) : Flow (Option Value) := do
  wrapLiteral rules node "Array"
    (.dictionary (Dictionary.ofValues (← elements rules scope values))) scope

/-- The entries of a dictionary literal; one without key is left out. -/
def dictionaryEntries (scope : Handle) : List Node → Dictionary → Flow Dictionary
  | [], read => return read
  | node :: rest, read =>
    match node.form with
    | .entry key value => do
      let key ← evalChild rules key scope
      let value ← evalChild rules value scope
      dictionaryEntries scope rest (key.elim read fun key => Dictionary.insert key value read)
    | _ => dictionaryEntries scope rest read

def dictionaryLiteral (node : Node) (entries : List Node) (scope : Handle) :
    Flow (Option Value) := do
  wrapLiteral rules node "Dictionary"
    (.dictionary (← dictionaryEntries rules scope entries [])) scope

/-! ## Chains, calls and subscripts -/

/-- A member of what the base names. -/
def chain (node : Node) (composite member : Option Node) (scope : Handle) :
    Flow (Option Value) := do
  let base ← evalLinkOf rules composite scope
  match (← get).compositeOf base with
  | none =>
    report .error (some node) "Composite wasn't found."
    return none
  | some composite =>
    match ← memberName rules member scope with
    | none => return none
    | some identifier =>
      return ((← get).lookup.find? composite identifier .property true).bind (·.overload.value)

/-- An argument with its label. -/
def argument (scope : Handle) (node : Node) : Flow Argument := do
  match node.form with
  | .argument label value =>
    return { label := label.bind Node.identifier?, value := ← evalChild rules value scope }
  | _ => return { value := ← rules.eval node scope }

def argumentList (scope : Handle) : List Node → Flow (List Argument)
  | [] => return []
  | node :: rest => do
    let first ← argument rules scope node
    return first :: (← argumentList scope rest)

/-- The arguments of a call, a closure behind it being the last. -/
def arguments (nodes : List Node) (closure : Option Node) (scope : Handle) :
    Flow (List Argument) := do
  let given ← argumentList rules scope nodes
  match closure with
  | none => return given
  | some closure => return given ++ [{ value := ← rules.eval closure scope }]

/-- What the callee of a call names. -/
def callee (node : Node) (scope : Handle) : Flow Callee := do
  match node.form with
  | .identifier name => return .member (some scope) name false
  | .chain composite member =>
    let base ← evalLinkOf rules composite scope
    match ← memberName rules member scope with
    | none => return .value none
    | some identifier => return .member ((← get).compositeOf base) identifier true
  | _ => return .value (← rules.evalLink node scope)

def callExpression (node : Node) (called : Option Node) (genericArguments argumentNodes : List Node)
    (closure : Option Node) (scope : Handle) : Flow (Option Value) := do
  let generics ← genericArguments.mapM fun argument => (typeOf scope (some argument) : Run TypeTree)
  let arguments ← arguments rules argumentNodes closure scope
  let callee ←
    match called with
    | some called => callee rules called scope
    | none => pure (.value none)
  match callee with
  | .value none =>
    report .warning (some node)
      "Cannot call anything but a valid (in particular, chain) expression."
    return none
  | callee => invoke rules node scope ((← get).plan callee arguments) arguments generics

/-- The character of a string at an index. -/
def characterAt (string : String) : Option Value → Option Value
  | some (.integer index) =>
    if index.toInt < 0 then none
    else (string.toList[index.toInt.toNat]?).map fun c => .string c.toString
  | _ => none

/-- An entry of a dictionary, a character of a string, or what the `subscript` of a
    composite gives. -/
def subscript (node : Node) (composite : Option Node) (argumentNodes : List Node)
    (closure : Option Node) (scope : Handle) : Flow (Option Value) := do
  let base ← evalLinkOf rules composite scope
  let arguments ← arguments rules argumentNodes closure scope
  let key := arguments.head?.bind (·.value)
  match base with
  | some (.dictionary entries) => return key.bind fun key => Dictionary.get? entries key
  | some (.string string) => return characterAt string key
  | base =>
    let machine ← get
    match machine.compositeOf base with
    | none => return none
    | some composite =>
      match (machine.lookup.find? composite "subscript" (.call arguments) true).bind
        (·.matching) with
      | some function =>
          rules.call { node := some node, function, arguments, caller := machine.callerOf scope }
      | none =>
        report .error (some node) "Subscript with specified signature wasn't found."
        return none

/-! ## Other expressions -/

/-- A reference passed on as a pointer. -/
def inoutExpression (node : Node) (value : Option Node) (scope : Handle) : Flow (Option Value) := do
  let value ← evalChild rules value scope
  match value.bind Value.handle? with
  | some handle => return some (.pointer handle)
  | none =>
    let primitive := (value.map fun value => value.primitive.name).getD "nil"
    report .error (some node) ("Non-reference value (\"" ++ primitive ++
      "\") can't be used as a pointer.")
    return none

/-- With `nillable` a throw becomes nil; otherwise it goes on. -/
def tryExpression (nillable : Bool) (value : Option Node) (scope : Handle) : Flow (Option Value) :=
  ExceptT.mk do
    let outcome ← (evalChild rules value scope).outcome
    match outcome with
    | .ok value => return .ok value
    | .error unwind =>
      if nillable && (← get).control.kind? = some .throw then
        resetTransfer rules
        return .ok none
      return .error unwind

/-- A value that must not be nil: with nil the whole chain ends. -/
def nillableLink (value : Option Node) (scope : Handle) : Flow (Option Value) := do
  let value ← evalLinkOf rules value scope
  if value.isNone then
    setTransfer rules none (some .nilUnwrap)
    Flow.unwind
  else return value

/-- The value of a link of a chain. -/
def linkNow (node : Node) (scope : Handle) : Flow (Option Value) :=
  match node.form with
  | .chain composite member => chain rules node composite member scope
  | .call callee genericArguments arguments closure =>
    callExpression rules node callee genericArguments arguments closure scope
  | .subscript composite _ arguments closure =>
      subscript rules node composite arguments closure scope
  | .nillableExpression value => nillableLink rules value scope
  | _ => rules.eval node scope

end Run

end CompositeGraph
