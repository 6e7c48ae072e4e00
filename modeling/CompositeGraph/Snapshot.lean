/-
  SNAPSHOTS: a store as text, and back.

  A snapshot keeps gaps and generations, so handles held by composites stay what they are.  A
  snapshot is refused if it is of another version, or if a composite refers to a
  slot that is not there.
-/
import CompositeGraph.Composite.Codec
import CompositeGraph.Json.Writer
import CompositeGraph.Store.Basic

namespace CompositeGraph

namespace Cell

def toJson (cell : Cell) : Json :=
  .object [("generation", .ofNat cell.generation),
    ("composite", .ofOption Composite.toJson cell.composite)]

def decoder : Decoder Cell :=
  Decoder.record ⟨0, none⟩
    [Decoder.field "generation" .needed (Decoder.natural 32) fun value cell =>
        { cell with generation := value },
      Decoder.field "composite" .nullable (Decoder.nullable Composite.decoder) fun value cell =>
        { cell with composite := value }]

end Cell

/-- The version this library writes and reads. -/
def snapshotVersion : Nat := 1

/-- A snapshot as decoded. -/
structure Snapshot where
  version : Nat
  cells : List Cell

namespace Snapshot

/-- Why a text is no snapshot. -/
inductive Error where
  | unreadable (fault : Fault)
  | version (found : Nat)
  | dangling (composite reference : Handle)

def Error.message : Error → String
  | .unreadable _ => "Malformed snapshot"
  | .version found =>
    s!"Snapshot version {found} is not supported (expected {snapshotVersion})"
  | .dangling composite reference =>
    "Composite " ++ composite.display ++ " references unknown slot " ++ reference.display

def ofStore (store : Store) : Snapshot := ⟨snapshotVersion, store.cells.toList⟩

def toJson (snapshot : Snapshot) : Json :=
  .object [("version", .ofNat snapshot.version),
    ("composites", .list (snapshot.cells.map Cell.toJson))]

def decoder : Decoder Snapshot :=
  Decoder.record ⟨0, []⟩
    [Decoder.field "version" .needed (Decoder.natural 32) fun value snapshot =>
        { snapshot with version := value },
      Decoder.field "composites" .needed (Decoder.list Cell.decoder) fun value snapshot =>
        { snapshot with cells := value }]

/-- The first reference out of the store, with the composite that has it. -/
def firstDangling (store : Store) : Option (Handle × Handle) :=
  store.live.findSome? fun (handle, composite) =>
    (composite.references.find? fun reference => store.size ≤ reference.index).map fun reference =>
      (handle, reference)

/-- The store of a decoded snapshot. -/
def toStore (snapshot : Snapshot) : Except Error Store := do
  if snapshot.version ≠ snapshotVersion then throw (.version snapshot.version)
  let store : Store := ⟨snapshot.cells.toArray⟩
  match firstDangling store with
  | some (composite, reference) => throw (.dangling composite reference)
  | none => return store

/-- The text of a store. -/
def save (store : Store) : String := (ofStore store).toJson.render

/-- The store of a text. -/
def restore (text : String) : Except Error Store :=
  match decoder.run text with
  | .error fault => .error (.unreadable fault)
  | .ok snapshot => snapshot.toStore

end Snapshot

end CompositeGraph
