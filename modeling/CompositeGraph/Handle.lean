/-
  HANDLES: names for the slots of a store.

  A slot that is freed counts its generation up, so a handle taken before is told apart from one
  taken after.  Handles are ordered by index, then by generation.
-/
import CompositeGraph.Json.Decoder

namespace CompositeGraph

/-- Names a composite: the slot it lives in and the generation of that slot. -/
structure Handle where
  index : Nat
  generation : Nat
  deriving DecidableEq, Repr, Inhabited

namespace Handle

/-- At or before, by index and then by generation. -/
def le (a b : Handle) : Bool := a.index < b.index ||
    (a.index == b.index && a.generation ≤ b.generation)

/-- A handle as it is shown, without generation. -/
def display (handle : Handle) : String := "#" ++ toString handle.index

def toJson (handle : Handle) : Json :=
  .object [("index", .ofNat handle.index), ("generation", .ofNat handle.generation)]

def decoder : Decoder Handle :=
  Decoder.record default
    [Decoder.field "index" .needed (Decoder.natural 32) fun value handle =>
      { handle with index := value },
      Decoder.field "generation" .needed (Decoder.natural 32) fun value handle =>
        { handle with generation := value }]

end Handle

end CompositeGraph
