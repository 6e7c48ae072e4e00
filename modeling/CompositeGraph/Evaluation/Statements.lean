/-
  STATEMENTS: branches, loops and transfers.

  A branch and each round of a loop run in a namespace of their own, which goes
when they end. -/
import CompositeGraph.Execution

namespace CompositeGraph.Run

variable (rules : Rules)

/-- The namespace of a branch or of a round of a loop. -/
def localNamespace (scope : Handle) (statement : String) : Run Handle := do
  let title := "Local<" ++ (← get).titleOf scope ++ ", " ++ statement ++ ">"
  createNamespace rules (some title) (some scope) .missing

/-- Runs the statements of a body; anything else is an expression. -/
def branch (node : Option Node) (space : Handle) : Flow (Option Value) :=
  match node with
  | some node =>
    match node.form with
    | .body statements => executeStatements rules space statements
    | _ => rules.eval node space
  | none => return none

def isIf (node : Option Node) : Bool :=
  match node.map Node.form with
  | some (.ifStatement _ _ _) => true
  | _ => false

/-- Runs one branch or the other.  An `if` as alternative goes on in the scope around. -/
def ifStatement (condition consequence alternative : Option Node) (scope : Handle) :
    Flow (Option Value) := do
  let space ← localNamespace rules scope "If"
  let outcome ← withScope rules ⟨space, none, none⟩ true do
    if Value.truthy (← evalChild rules condition space) then
      return some (← branch rules consequence space)
    if isIf alternative then return none
    return some (← branch rules alternative space)
  match outcome with
  | some value => return value
  | none => evalChild rules alternative scope

/-- One round of a loop: whether there may be another. -/
def round (condition body : Option Node) (scope : Handle) : Flow Bool := do
  let space ← localNamespace rules scope "While"
  withScope rules ⟨space, none, none⟩ true do
    if !Value.truthy (← evalChild rules condition space) then return false
    let _ ← branch rules body space
    return true

/-- Goes round once: whether the loop goes on.  A break ends the loop, a continue only the round. -/
def turn (condition body : Option Node) (scope : Handle) : Flow Bool :=
  ExceptT.mk do
    let outcome ← (round rules condition body scope).outcome
    match outcome with
    | .ok false => return .ok false
    | .ok true =>
      resetTransfer rules
      return .ok true
    | .error unwind =>
      match (← get).control.kind? with
      | some .break =>
        resetTransfer rules
        return .ok false
      | some .continue =>
        resetTransfer rules
        return .ok true
      | _ => return .error unwind

/-- Goes round as long as the condition holds. -/
def loop (condition body : Option Node) (scope : Handle) : (rounds : Nat) → Flow (Option Value)
  | 0 => (exhausted : Run (Option Value))
  | rounds + 1 => do
    if ← turn rules condition body scope then loop condition body scope rounds
    else return none

def whileStatement (condition body : Option Node) (scope : Handle) : Flow (Option Value) :=
  loop rules condition body scope rules.budget

/-- Transfers control with a value. -/
def transfer (value : Option Node) (kind : TransferKind) (scope : Handle) :
    Flow (Option Value) := do
  let value ← evalChild rules value scope
  setTransfer rules value (some kind)
  Flow.unwind

end CompositeGraph.Run
