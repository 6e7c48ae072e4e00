/-
  CREATION of composites, and the levels they stand on.

  A composite retains its scope and what its type refers to from the start.  Classes, enumerations,
  protocols, structures and namespaces are their own `self`; functions take the levels of the scope
  they are declared in; an object stands between the objects above and below it.
-/
import CompositeGraph.Retention

namespace CompositeGraph

/-- Where a namespace takes its level slots from. -/
inductive Levels where
  /-- It is its own `self`. -/
  | own
  /-- They are those of another composite. -/
  | copied (source : Handle)
  /-- They stay empty. -/
  | missing

namespace Store

/-- What a composite is as a type: itself, or the class of an object. -/
def selfType? (store : Store) (handle : Handle) : Option Handle :=
  (store.get? handle).bind fun composite =>
    if composite.is .object then composite.type.inherited? else some handle

end Store

namespace Run

variable (rules : Rules)

/-! ## Levels -/

def setSuperLevels (handle : Handle) (above : Option Handle) : Run Unit := do
  let superType := above.bind (← store).selfType?
  setSlot rules handle .super above
  setSlot rules handle .superType superType

def setSelfLevels (handle level : Handle) : Run Unit := do
  let selfType := (← store).selfType? level
  setSlot rules handle .current (some level)
  setSlot rules handle .currentType selfType

/-- Only objects have an object below. -/
def setSubLevels (object : Handle) (below : Option Handle) : Run Unit := do
  let store ← store
  match below with
  | none => return
  | some below =>
    if store.isKind .object object && store.isKind .object below then
      let subType := (store.get? below).bind fun composite => composite.type.inherited?
      setSlot rules object .sub (some below)
      setSlot rules object .subType subType

/-- Copies the level slots of another composite. -/
def setInheritedLevels (handle source : Handle) : Run Unit := do
  if handle ≠ source then
    Slot.levels.forM fun slot => do
      let value := (← store).link? slot source
      setSlot rules handle slot value

/-! ## Creation -/

/-- A composite that retains its scope and what its type refers to. -/
def createComposite (title : Option String) (type : TypeTree)
    (scope : Option Handle) : Run Handle := do
  let handle ← modifyGet fun machine =>
    let (store, handle) := machine.store.add (Composite.fresh title type)
    (handle, { machine with store })
  if scope.isSome then setSlot rules handle .scope scope
  type.references.forM (retainOrRelease rules handle)
  return handle

/-- A composite that is its own `self`. -/
def createSelfLeveled (title : Option String) (kind : Kind)
    (scope : Option Handle) : Run Handle := do
  let handle ← createComposite rules title (.ofKind kind) scope
  setSelfLevels rules handle handle
  return handle

/-- A function on the levels of its scope. -/
def createFunction (title : Option String) (statements : Statements) (scope : Option Handle) :
    Run Handle := do
  let handle ← createComposite rules title (.ofKind .function) scope
  modifyComposite handle fun composite => { composite with statements }
  scope.forM (setInheritedLevels rules handle)
  return handle

def createNamespace (title : Option String) (scope : Option Handle)
    (levels : Levels) : Run Handle := do
  let handle ← createComposite rules title (.ofKind .namespace) scope
  match levels with
  | .own => setSelfLevels rules handle handle
  | .copied source => setInheritedLevels rules handle source
  | .missing => return handle
  return handle

/-- The type of an object: what it inherits is its class. -/
def objectType (classHandle : Handle) : TypeTree :=
  let (type, inherited) := (TypeTree.ofKind .object).collect none (some 0) .inheritedTypes
  (type.push (some inherited)).adjust type.size fun part =>
    { part with reference := some classHandle }

/-- An object of a class, between the objects above and below it. -/
def createObject (above : Option Handle) (classHandle : Handle)
    (below : Option Handle) : Run Handle := do
  let title := "Object<" ++ (← get).titleOf classHandle ++ ">"
  let handle ← createComposite rules (some title) (objectType classHandle) (some classHandle)
  if above.isSome then setSuperLevels rules handle above
  setSelfLevels rules handle handle
  setSubLevels rules handle below
  return handle

end Run

end CompositeGraph
