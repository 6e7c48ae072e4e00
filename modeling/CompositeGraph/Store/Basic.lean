/-
  THE STORE of composites.

  Slots are handed out in order and never again: the slot of a composite that is freed stays as a
  gap, with its generation counted up so that no handle taken before names anything.

    1. SLOTS.    `Cell` and `Store`; `get?` by handle.
    2. CHANGES.  `add`, `modify`, `free`.
    3. VIEWS.    The live composites with their handles, kinds, and the
lineage of types. -/
import CompositeGraph.Composite.Basic
import CompositeGraph.TypeTree.Accepts

namespace CompositeGraph

/-- A slot of the store. -/
structure Cell where
  generation : Nat
  composite : Option Composite

/-- All slots, gaps included. -/
structure Store where
  cells : Array Cell := #[]

namespace Store

def empty : Store := {}

/-- The number of slots, gaps included. -/
def size (store : Store) : Nat := store.cells.size

/-- The composite a handle names, unless the handle is stale. -/
def get? (store : Store) (handle : Handle) : Option Composite :=
  match store.cells[handle.index]? with
  | some cell => if cell.generation = handle.generation then cell.composite else none
  | none => none

/-- Whether a handle names a composite. -/
def contains (store : Store) (handle : Handle) : Bool := (store.get? handle).isSome

/-- The handle of the composite in a slot. -/
def handleAt? (store : Store) (index : Nat) : Option Handle :=
  match store.cells[index]? with
  | some ⟨generation, some _⟩ => some ⟨index, generation⟩
  | _ => none

/-! ## Changes -/

/-- Puts a composite into a new slot. -/
def add (store : Store) (composite : Composite) : Store × Handle :=
  (⟨store.cells.push ⟨0, some composite⟩⟩, ⟨store.cells.size, 0⟩)

/-- Changes the composite a handle names. -/
def modify (store : Store) (handle : Handle) (change : Composite → Composite) : Store :=
  ⟨store.cells.modify handle.index fun cell =>
    if cell.generation = handle.generation then { cell with composite := cell.composite.map change }
    else cell⟩

/-- The generation after one: they are counted in 32 bits. -/
def nextGeneration (generation : Nat) : Nat := (generation + 1) % 4294967296

/-- Leaves a gap where the composite was. -/
def free (store : Store) (handle : Handle) : Store :=
  ⟨store.cells.modify handle.index fun cell =>
    if cell.generation = handle.generation ∧ cell.composite.isSome then
      ⟨nextGeneration cell.generation, none⟩
    else cell⟩

/-! ## Views -/

/-- The live composites with their handles, by slot. -/
def live (store : Store) : List (Handle × Composite) :=
  store.cells.toList.zipIdx.filterMap fun (cell, index) =>
    cell.composite.map fun composite => (⟨index, cell.generation⟩, composite)

def liveCount (store : Store) : Nat := store.live.length

def kind? (store : Store) (handle : Handle) : Option Kind :=
  (store.get? handle).bind Composite.kind?

/-- Whether a handle names a composite of the kind. -/
def isKind (store : Store) (kind : Kind) (handle : Handle) : Bool := store.kind? handle == some kind

/-- The composite a slot of a composite names. -/
def link? (store : Store) (slot : Slot) (handle : Handle) : Option Handle :=
  (store.get? handle).bind fun composite => composite.links.get slot

/-- What acceptance has to know. -/
def lineage (store : Store) : Lineage where
  superType := store.link? .superType
  kind handle := (store.get? handle).bind fun composite => composite.type.rootPredefined?

end Store

end CompositeGraph
