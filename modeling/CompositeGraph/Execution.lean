/-
  EXECUTION of statements.

  After each statement the composites it created are looked at, and those that nothing keeps are
  destroyed.  The value of the last statement of a list stays in the frame as its implicit transfer;
  what any other leaves there is dropped.
-/
import CompositeGraph.Creation

namespace CompositeGraph.Run

variable (rules : Rules)

/-- Runs something in a scope of its own, which is left however that ends. -/
def withScope {α : Type} (scope : Scope) (collect : Bool) (body : Flow α) : Flow α :=
  ExceptT.mk do
    pushScope scope
    let outcome ← body.outcome
    popScope rules collect
    return outcome

/-- Destroys what was created from a slot on and is not kept. -/
def collectFrom (start : Nat) : Run Unit := do
  let stop := (← store).size
  (List.range' start (stop - start)).forM fun index => do
    ((← store).handleAt? index).forM (destroyIfReleased rules)

/-- Runs one statement, the last of its list if `tail`. -/
def executeStatement (node : Node) (scope : Handle) (tail : Bool) : Flow (Option Value) :=
  ExceptT.mk do
    let start := (← store).size
    let outcome ← (rules.eval node scope).outcome
    let displaced ←
      match outcome with
      | .ok value =>
        withControl fun control => if tail then control.set value none else control.take
      | .error _ => pure none
    collectFrom rules start
    collectTransfer rules displaced
    return outcome

/-- Runs statements in order; their value is that of the last one. -/
def executeStatements (scope : Handle) : List Node → Flow (Option Value)
  | [] => return none
  | [node] => executeStatement rules node scope true
  | node :: rest => do
    let _ ← executeStatement rules node scope false
    executeStatements scope rest

/-- A pending end at nil becomes nil. -/
def absorbNilUnwrap (flow : Flow (Option Value)) : Flow (Option Value) :=
  ExceptT.mk do
    let outcome ← flow.outcome
    match outcome with
    | .ok value => return .ok value
    | .error unwind =>
      if (← get).control.kind? = some .nilUnwrap then
        resetTransfer rules
        return .ok none
      return .error unwind

/-- The value of a child that may be missing. -/
def evalChild (node : Option Node) (scope : Handle) : Flow (Option Value) :=
  match node with
  | some node => rules.eval node scope
  | none => return none

end CompositeGraph.Run
