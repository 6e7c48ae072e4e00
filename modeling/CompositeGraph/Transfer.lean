/-
  TRANSFERS OF CONTROL as data.

  Each call has a frame that holds at most one transfer.  A transfer with a kind is explicit:
  something was returned, thrown, broken off.  One without is the value that a
  list of statements ends with.
-/
import CompositeGraph.Value.Basic

namespace CompositeGraph

/-- The ways control is transferred. -/
inductive TransferKind where
  | return
  | break
  | continue
  | throw
  /-- A base was nil where nil ends the expression. -/
  | nilUnwrap
  /-- Too many calls were nested. -/
  | abort
  deriving DecidableEq, Repr

namespace TransferKind

def name : TransferKind → String
  | .return => "return"
  | .break => "break"
  | .continue => "continue"
  | .throw => "throw"
  | .nilUnwrap => "nilUnwrap"
  | .abort => "abort"

def ofName : String → Option TransferKind
  | "return" => some .return
  | "break" => some .break
  | "continue" => some .continue
  | "throw" => some .throw
  | "nilUnwrap" => some .nilUnwrap
  | "abort" => some .abort
  | _ => none

end TransferKind

/-- A transfer, implicit if it has no kind. -/
structure Transfer where
  kind : Option TransferKind
  value : Option Value

def Transfer.isExplicit (transfer : Transfer) : Bool := transfer.kind.isSome

/-- The frames of the calls under way, the innermost first. -/
structure Control where
  frames : List (Option Transfer) := []

namespace Control

def depth (control : Control) : Nat := control.frames.length

/-- The transfer in the innermost frame. -/
def current? (control : Control) : Option Transfer := control.frames.head?.join

def kind? (control : Control) : Option TransferKind := control.current?.bind (·.kind)

def isExplicit (control : Control) : Bool := control.kind?.isSome

def push (control : Control) : Control := ⟨none :: control.frames⟩

/-- Takes the innermost frame away, with its transfer. -/
def pop (control : Control) : Option Transfer × Control := (control.current?, ⟨control.frames.tail⟩)

/-- Replaces the transfer of the innermost frame and gives the one it had. -/
def set (control : Control) (value : Option Value) (kind : Option TransferKind) :
    Option Transfer × Control :=
  match control.frames with
  | [] => (none, control)
  | old :: rest => (old, ⟨some ⟨kind, value⟩ :: rest⟩)

/-- Takes the transfer out of the innermost frame. -/
def take (control : Control) : Option Transfer × Control :=
  match control.frames with
  | [] => (none, control)
  | old :: rest => (old, ⟨none :: rest⟩)

/-- Composites held by transfers, those of the outermost frame first. -/
def handles (control : Control) : List Handle :=
  control.frames.reverse.flatMap fun frame => Value.optionHandles (frame.bind (·.value))

end Control

end CompositeGraph
