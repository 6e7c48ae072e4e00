/-
  OPERATORS as a program uses them.

  A function of the operator's name that is in scope and takes the operands comes before the
  built-in meaning.  Assignments need a place on their left that is there.
-/
import CompositeGraph.Evaluation.Arithmetic
import CompositeGraph.Evaluation.Climb
import CompositeGraph.Evaluation.Places

namespace CompositeGraph.Run

variable (rules : Rules)

/-- Reports why an operator has no result. -/
def reportArithmetic (node : Node) (symbol : String) (error : Arithmetic.Error) : Run Unit :=
  let (level, message) := error.report symbol
  report level (some node) message

/-- The function that an operator calls for its operands, if there is one. -/
def operatorFunction (scope : Handle) (symbol : String) (arguments : List Argument) :
    Run (Option Handle) := do
  return ((← get).lookup.find? scope symbol (.call arguments) false).bind (·.matching)

/-- Calls the function of an operator. -/
def callOperator (node : Node) (scope function : Handle) (arguments : List Argument) :
    Flow (Option Value) := do
  let caller := (← get).callerOf scope
  rules.call { node := some node, function, arguments, caller }

/-- An operator between two values. -/
def applyBinary (node : Node) (symbol : String) (a b : Option Value) (scope : Handle) :
    Flow (Option Value) := do
  let arguments : List Argument := [{ value := a }, { value := b }]
  match ← operatorFunction scope symbol arguments with
  | some function => callOperator rules node scope function arguments
  | none =>
    match Arithmetic.binary symbol a b with
    | .ok value => return some value
    | .error error =>
      reportArithmetic node symbol error
      return none

/-- An operator on one value: the function of its name, or else the value as it is. -/
def applyUnary (node : Node) (symbol : String) (value : Option Value) (scope : Handle) :
    Flow (Option Value) := do
  if value.isNone then return none
  match ← operatorFunction scope symbol [{ value }] with
  | some function => callOperator rules node scope function [{ value }]
  | none => return value

/-! ## Sequences -/

/-- The arithmetic in a compound assignment; none in a plain one. -/
def compound? : String → Option String
  | "+=" => some "+"
  | "-=" => some "-"
  | "*=" => some "*"
  | "/=" => some "/"
  | "%=" => some "%"
  | _ => none

def isAssignment (symbol : String) : Bool := symbol == "=" || (compound? symbol).isSome

/-- The place on the left of an assignment, if it is there. -/
def assigned (scope : Handle) : Operation → Flow (Option Place)
  | .operand target => do
    let place ← placeOf rules scope target
    let machine ← get
    return place.filter machine.placeExists
  | .join _ _ _ => return none

/-- The value of a tree of operands and operators. -/
def operate (node : Node) (scope : Handle) : Operation → Flow (Option Value)
  | .operand operand => rules.eval operand scope
  | .join symbol left right => do
    if isAssignment symbol then
      match ← assigned rules scope left with
      | none =>
        report .warning (some node) notAssignable
        return none
      | some place =>
        let value ← operate node scope right
        match compound? symbol with
        | none => assign rules node place value
        | some arithmetic =>
          let current := (← get).readPlace place
          let value ← applyBinary rules node arithmetic current value scope
          assign rules node place value
    else if symbol == "&&" then
      if !Value.truthy (← operate node scope left) then return some (.boolean false)
      return some (.boolean (Value.truthy (← operate node scope right)))
    else if symbol == "||" then
      if Value.truthy (← operate node scope left) then return some (.boolean true)
      return some (.boolean (Value.truthy (← operate node scope right)))
    else
      let a ← operate node scope left
      let b ← operate node scope right
      applyBinary rules node symbol a b scope

/-- The precedence of an operator in a scope: as declared, or built in. -/
def precedenceIn (lookup : Lookup) (scope : Handle) (symbol : String) : Int × Associativity :=
  match lookup.operator? scope symbol "infix" with
  | some operator => (operator.precedence.toInt, operator.associativity)
  | none => Arithmetic.precedence symbol

/-- The value of a sequence of operands and operators. -/
def sequence (node : Node) (values : List Node) (scope : Handle) : Flow (Option Value) := do
  match Operation.ofSequence (precedenceIn (← get).lookup scope) values with
  | .ok none => return none
  | .ok (some operation) => operate rules node scope operation
  | .error symbol =>
    report .error (some node)
      ("Operator \"" ++ symbol ++ "\" is non-associative and can't be chained.")
    return none

/-! ## Before and after an operand -/

/-- A value one up or down; what cannot be counted goes to the function of the operator. -/
def stepOperand (node : Node) (symbol : String) (value : Option Value) (scope : Handle) :
    Flow (Option Value) := do
  match Arithmetic.step value (if symbol == "++" then 1 else -1) with
  | .ok value => return some value
  | .error .operands => applyUnary rules node symbol value scope
  | .error error =>
    reportArithmetic node symbol error
    return none

/-- Writes a value back to the operand it came from, if that is a place. -/
def writeBack (node : Node) (operand : Option Node) (value : Option Value)
    (scope : Handle) : Flow Unit := do
  match operand with
  | none => return
  | some operand =>
    match ← placeOf rules scope operand with
    | none => return
    | some place => do let _ ← writePlace rules node place value

def isStep (symbol : String) : Bool := symbol == "++" || symbol == "--"

/-- The symbol of the operator of an expression; empty if there is none. -/
def symbolOf (operator : Option Node) : String := (operator.bind Node.operator?).getD ""

/-- An operator before its operand. -/
def prefixed (node : Node) (operator operand : Option Node) (scope : Handle) :
    Flow (Option Value) := do
  let symbol := symbolOf operator
  let value ← evalChild rules operand scope
  if symbol == "!" then return some (.boolean (!Value.truthy value))
  else if symbol == "+" && value.isSome then return value
  else if symbol == "-" then
    match value with
    | some (.integer integer) =>
      match Arithmetic.fitting (-integer.toInt) with
      | .ok negated => return some negated
      | .error error =>
        reportArithmetic node symbol error
        return none
    | some (.float float) => return some (.float (-float))
    | value => applyUnary rules node symbol value scope
  else if isStep symbol then
    let stepped ← stepOperand rules node symbol value scope
    writeBack rules node operand stepped scope
    return stepped
  else applyUnary rules node symbol value scope

/-- An operator behind its operand. -/
def postfixed (node : Node) (operator operand : Option Node) (scope : Handle) :
    Flow (Option Value) := do
  let symbol := symbolOf operator
  let value ← evalChild rules operand scope
  if isStep symbol then
    let stepped ← stepOperand rules node symbol value scope
    writeBack rules node operand stepped scope
    return value
  applyUnary rules node symbol value scope

end CompositeGraph.Run
