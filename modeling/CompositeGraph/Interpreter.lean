/-
  THE INTERPRETER: the rules tied together.

  Evaluating, calling and destroying call for each other without end, so they are cut off at a
  depth.  `rules n` are the rules that may go `n` deep and round each loop `n` times.  A run that
  comes to a result at one depth comes to the same at any greater one.

    1. THE KNOT.  `rules`, and `Rules.unbounded`, deep enough for all that is run.
    2. MODULES.   `runModule` runs the statements of a tree in the outermost namespace.
-/
import CompositeGraph.Evaluation

namespace CompositeGraph

/-! ## The knot -/

/-- The rules that go no deeper than a given depth. -/
def rules : (depth : Nat) → Rules
  | 0 =>
    { budget := 0
      eval := fun _ _ => (Run.exhausted : Run _)
      evalLink := fun _ _ => (Run.exhausted : Run _)
      call := fun _ => (Run.exhausted : Run _)
      destroy := fun _ => Run.exhausted }
  | depth + 1 =>
    { budget := depth
      eval := fun node scope => Run.evalNow (rules depth) node scope
      evalLink := fun node scope => Run.linkNow (rules depth) node scope
      call := fun call => Run.callNow (rules depth) call
      destroy := fun handle => Run.destroyNow (rules depth) handle }

/-- The rules that runs are given: nothing that a computer can do goes so deep. -/
def Rules.unbounded : Rules := rules 1000000000000000000

/-! ## Modules -/

namespace Run

variable (rules : Rules)

/-- What becomes of a transfer that no function caught: a throw is reported and ends the module, and
    so does a return. -/
def endsModule (node : Node) (transfer : Option Transfer) : Run Bool := do
  match transfer.bind (·.kind) with
  | some .throw =>
    let value := (← get).valueString (transfer.bind (·.value))
    report .error (some node) ("Uncaught throw of " ++ value ++ ".")
    return true
  | some .return => return true
  | _ => return false

/-- Runs the statements of a module until one ends it. -/
def moduleStatements (global : Handle) : List Node → Run Unit
  | [] => return
  | node :: rest => do
    let outcome ← (executeStatement rules node global false).outcome
    match outcome with
    | .ok _ => moduleStatements global rest
    | .error _ =>
      let transfer ← withControl Control.take
      let ends ← endsModule node transfer
      collectTransfer rules transfer
      if !ends then moduleStatements global rest

/-- Runs a module in the outermost namespace, which is made unless an earlier run left one. -/
def runModule (tree : Node) : Run Unit := do
  let global ←
    match (← get).global? with
    | some global => pure global
    | none => createNamespace rules (some "Global") none .own
  declareNatives rules global
  pushScope ⟨global, none, none⟩
  pushFrame
  moduleStatements rules global tree.statements
  let _ ← popFrame
  popScope rules true

end Run

end CompositeGraph
