/-
  RETENTION: keeping the lists of retainers true, and collecting what is no longer kept.

  Links are stored backwards too: a composite lists those that are linked to it.  A composite lives
  as long as a walk over these lists meets a root.  Nothing is collected on its own account; each
  release looks again at what was released.

    1. EDGES.       `retain`, `release`, `reconcile`.
    2. COLLECTING.  `destroyIfReleased`, `destroyNow`, and the transfers that stop being roots.
    3. LINKS.       Setting a slot, the type, imports, observers, members and operators.
-/
import CompositeGraph.Lookup

namespace CompositeGraph.Run

variable (rules : Rules)

/-! ## Edges -/

/-- Destroys a composite that is not kept. -/
def destroyIfReleased (handle : Handle) : Run Unit := do
  let machine ← get
  if machine.store.contains handle && !machine.isRetained handle then rules.destroy handle

/-- Lists a retainer, once and never the composite itself. -/
def retain (retaining retained : Handle) : Run Unit :=
  if retaining = retained then return
  else modifyComposite retained fun composite => composite.mapRetainers fun retainers =>
    if retainers.contains retaining then retainers else retainers ++ [retaining]

/-- Strikes a retainer off, and looks whether the composite is still kept if it was listed. -/
def release (retaining retained : Handle) : Run Unit := do
  if retaining ≠ retained && ((← store).retainers retained).contains retaining then
    modifyComposite retained fun composite => composite.mapRetainers fun retainers =>
      retainers.filter (· != retaining)
    destroyIfReleased rules retained

/-- Retains or releases, by whether the link is there. -/
def retainOrRelease (retaining retained : Handle) : Run Unit := do
  if (← get).retains retaining retained then retain retaining retained
  else release rules retaining retained

/-- Those of a list that another lacks, in order and once each. -/
def missingFrom (others handles : List Handle) : List Handle :=
  ((handles.filter fun handle => !others.contains handle).mergeSort Handle.le).eraseDups

/-- Settles the links in which two lists differ, new ones first so that what moves survives. -/
def reconcile (retaining : Handle) (old new : List Handle) : Run Unit :=
  (missingFrom old new ++ missingFrom new old).forM (retainOrRelease rules retaining)

/-! ## Collecting -/

/-- Looks again at the composites of a transfer that stopped being a root. -/
def collectTransfer (transfer : Option Transfer) : Run Unit :=
  (Value.optionHandles (transfer.bind (·.value))).forM (destroyIfReleased rules)

/-- Replaces the transfer of the innermost frame. -/
def setTransfer (value : Option Value) (kind : Option TransferKind) : Run Unit := do
  collectTransfer rules (← withControl fun control => control.set value kind)

/-- Clears the transfer of the innermost frame. -/
def resetTransfer : Run Unit := do collectTransfer rules (← withControl Control.take)

/-- Takes the innermost scope away; with `collect`, its namespace goes if it is not kept. -/
def popScope (collect : Bool) : Run Unit := do
  match (← get).scopes with
  | [] => return
  | scope :: rest =>
    modify fun machine => { machine with scopes := rest }
    if collect then destroyIfReleased rules scope.namespaceHandle

/-- Runs the deinitializer of an object in a frame of its own, however it ends. -/
def runDeinitializer (object : Handle) : Run Unit := do
  match ((← get).lookup.find? object "deinit" (.call []) true).bind (·.matching) with
  | none => return
  | some function =>
    pushFrame
    let _ ← (rules.call { function, levels := some object }).outcome
    collectTransfer rules (← popFrame)

/-- The report about a composite that was destroyed although another is linked to it. -/
def danglingMessage (handle : Handle) : String :=
  "Composite " ++ handle.display ++
    " was destroyed with a non-empty retainer list (either it was " ++
    "retained by its own non-significantly-retained composite(s) or something destroyed it " ++
    "forcibly)."

/-- Takes a composite out of the store, and reports if a living one is still linked to it. -/
def removeFromStore (handle : Handle) : Run Unit := do
  match (← store).get? handle with
  | none => return
  | some composite =>
    modifyStore fun store => store.free handle
    let store ← store
    if composite.links.retainers.any fun retainer =>
      (store.get? retainer).any Composite.isAlive then
      report .warning none (danglingMessage handle)

/-- Ends the life of a composite: runs its deinitializer if it is an object, releases what it
    retains and leaves a gap. A life ends once. -/
def destroyNow (handle : Handle) : Run Unit := do
  match (← store).get? handle with
  | none => return
  | some composite =>
    if composite.isAlive then
      modifyComposite handle fun composite => { composite with life := .destroyed }
      if composite.is .object then runDeinitializer rules handle
      let retained := (← store).live.filter fun (other, composite) =>
        other != handle && composite.links.retainers.contains handle
      retained.forM fun (other, _) => release rules handle other
      removeFromStore handle

/-! ## Links -/

/-- Slots whose chains must not run in circles. -/
def isChain : Slot → Bool
  | .current => false
  | .currentType => false
  | _ => true

/-- Sets a slot, unless that would make its chain run in a circle. -/
def setSlot (handle : Handle) (slot : Slot) (value : Option Handle) : Run Unit := do
  let before ← store
  match before.get? handle with
  | none => return
  | some composite =>
    let old := composite.links.get slot
    let after := before.modify handle fun composite => composite.setSlot slot value
    if isChain slot && after.returns slot handle then return
    modifyStore fun store => store.modify handle fun composite => composite.setSlot slot value
    if old ≠ value then
      old.forM (retainOrRelease rules handle)
      value.forM (retainOrRelease rules handle)

/-- Replaces the type of a composite. -/
def setType (handle : Handle) (type : TypeTree) : Run Unit := do
  match (← store).get? handle with
  | none => return
  | some composite =>
    modifyComposite handle fun composite => { composite with type }
    reconcile rules handle composite.type.references type.references

/-- Imports a composite under a name. -/
def setImport (handle : Handle) (name : String) (imported : Handle) : Run Unit := do
  match (← store).get? handle with
  | none => return
  | some composite =>
    modifyComposite handle fun composite =>
      { composite with imports := composite.imports.put name imported }
    reconcile rules handle (composite.imports.get? name).toList [imported]

/-- Takes an import back. -/
def removeImport (handle : Handle) (name : String) : Run Unit := do
  match ((← store).get? handle).bind fun composite => composite.imports.get? name with
  | none => return
  | some old =>
    modifyComposite handle fun composite =>
      { composite with imports := composite.imports.remove name }
    retainOrRelease rules handle old

/-- Attaches an observer to a composite. -/
def addObserver (handle : Handle) (observer : Observer) : Run Unit := do
  if (← store).contains handle then
    modifyComposite handle fun composite =>
      { composite with observers := composite.observers ++ [observer] }
    retainOrRelease rules handle observer.function

/-- Takes the observers of a name off. -/
def removeObserver (handle : Handle) (identifier : String) : Run Unit := do
  match (← store).get? handle with
  | none => return
  | some composite =>
    let (removed, kept) := composite.observers.partition fun observer =>
      observer.identifier == identifier
    modifyComposite handle fun composite => { composite with observers := kept }
    removed.forM fun observer => retainOrRelease rules handle observer.function

/-! ## Members -/

/-- Where an overload is put. -/
inductive Placement where
  /-- Behind the overloads of the composite. -/
  | append
  /-- In place of the composite's first overload, or as its first. -/
  | first
  /-- In place of an overload of the owner, or behind its overloads. -/
  | replace (owner : Handle) (index : Option Nat)

/-- The composite that gets the overload, and the place of the one to replace. -/
def Placement.target (handle : Handle) : Placement → Handle × Option Nat
  | .append => (handle, none)
  | .first => (handle, some 0)
  | .replace owner index => (owner, index)

/-- Puts an overload in and gives the one it replaces. -/
def placeOverload (overload : Overload) (index : Option Nat) (overloads : List Overload) :
    Option Overload × List Overload :=
  match index.bind fun index => overloads[index]?.map fun old => (index, old) with
  | some (index, old) => (some old, overloads.set index overload)
  | none => (none, overloads ++ [overload])

/-- Puts an overload of a member where it belongs, and gives its owner. -/
def setMember (handle : Handle) (identifier : String) (overload : Overload)
    (placement : Placement) : Run (Option Handle) := do
  let (owner, index) := placement.target handle
  match (← store).get? owner with
  | none => return none
  | some composite =>
    let overloads := (composite.members.get? identifier).getD []
    let (old, overloads) := placeOverload overload index overloads
    modifyComposite owner fun composite =>
      { composite with members := composite.members.put identifier overloads }
    reconcile rules owner (old.elim [] Overload.references) overload.references
    return some owner

/-- Takes a member out with all its overloads. -/
def removeMember (handle : Handle) (identifier : String) : Run Unit := do
  match ((← store).get? handle).bind fun composite => composite.members.get? identifier with
  | none => return
  | some overloads =>
    modifyComposite handle fun composite =>
      { composite with members := composite.members.remove identifier }
    reconcile rules handle (overloads.flatMap Overload.references) []

/-- The words that say where an operator stands. -/
def fixities : List String := ["prefix", "infix", "postfix"]

/-- Replaces the first operator that has a modifier, or adds one. -/
def placeOperator (modifier : String) (operator : Operator) : List Operator → List Operator
  | [] => [operator]
  | old :: rest =>
    if old.modifiers.contains modifier then operator :: rest else
      old :: placeOperator modifier operator rest

/-- Declares an operator on a namespace, in place of one that stands in the same way. -/
def setOperator (handle : Handle) (symbol : String) (operator : Operator) : Run Unit :=
  match operator.modifiers.find? fixities.contains with
  | none => return
  | some fixity =>
    modifyComposite handle fun composite =>
      if composite.is .namespace then
        let operators := (composite.operators.get? symbol).getD []
        { composite with
          operators := composite.operators.put symbol (placeOperator fixity operator operators) }
      else composite

end CompositeGraph.Run
