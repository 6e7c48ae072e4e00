/-
  DRAFTS: what could be read of a JSON text.

  A text may stop being JSON half way through, and a reader that works from front to back has by
  then already looked at what came before.  So reading a text never fails: it gives a draft, a
  tree that holds everything up to the first fault and the fault itself in the place where it
  stands.  A decoder that walks a draft from front to back meets a mismatch of its own or the
  fault of the text, whichever comes first.

    1. FAULTS.     `Fault`: the text is malformed, it ends early, or it is JSON of another shape.
    2. THE DRAFT.  `Draft`, with a place for a fault inside every list and object.
    3. PASSES.     `Draft.settle` looks for the first fault of a whole draft, nesting included;
                   `Draft.skip` is the milder look at a part nobody reads.
-/
import CompositeGraph.Json.Basic

namespace CompositeGraph

/-- What is wrong with a document. -/
inductive Fault where
  /-- The text is not JSON, or nests too deeply. -/
  | malformed
  /-- The text ends before the document does. -/
  | truncated
  /-- The document is JSON, but not of the shape that was asked for. -/
  | mismatched
  deriving DecidableEq, Repr, Inhabited

/-- A document as far as its text could be read. -/
inductive Draft where
  | null
  | bool (value : Bool)
  | int (value : Int)
  | float (value : Float)
  | text (value : String)
  /-- The items before the fault, if there is one between them or at the end. -/
  | list (items : List Draft) (fault : Option Fault)
  /-- The fields before the fault, if there is one between them or at the end. -/
  | object (fields : List (String × Draft)) (fault : Option Fault)
  /-- A token of good form without a value: an unpaired surrogate, a number out of range. -/
  | unusable
  /-- The text goes bad inside this token. -/
  | broken (fault : Fault)
  deriving Inhabited

/-- Lists and objects nest at most this deep. -/
def nestingLimit : Nat := 127

namespace Draft

/-- Raises the fault of a list or object, if there is one. -/
def raise : Option Fault → Except Fault Unit
  | none => .ok ()
  | some fault => .error fault

mutual

/-- The first fault of a part that is ignored: tokens without a value and nesting do not count. -/
def skip : Draft → Except Fault Unit
  | .list items fault => do skipItems items; raise fault
  | .object fields fault => do skipFields fields; raise fault
  | .broken fault => .error fault
  | _ => .ok ()

def skipItems : List Draft → Except Fault Unit
  | [] => .ok ()
  | item :: rest => do skip item; skipItems rest

def skipFields : List (String × Draft) → Except Fault Unit
  | [] => .ok ()
  | (_, value) :: rest => do skip value; skipFields rest

end

mutual

/-- The first fault of a part that is kept whole, with `levels` of nesting still allowed. -/
def settle (levels : Nat) : Draft → Except Fault Unit
  | .list items fault =>
    match levels with
    | 0 => .error .malformed
    | levels + 1 => do settleItems levels items; raise fault
  | .object fields fault =>
    match levels with
    | 0 => .error .malformed
    | levels + 1 => do settleFields levels fields; raise fault
  | .unusable => .error .malformed
  | .broken fault => .error fault
  | _ => .ok ()

def settleItems (levels : Nat) : List Draft → Except Fault Unit
  | [] => .ok ()
  | item :: rest => do settle levels item; settleItems levels rest

def settleFields (levels : Nat) : List (String × Draft) → Except Fault Unit
  | [] => .ok ()
  | (_, value) :: rest => do settle levels value; settleFields levels rest

end

/-! ## Drafts of whole documents -/

mutual

/-- The draft of a document that was read to its end. -/
def ofJson : Json → Draft
  | .null => .null
  | .bool value => .bool value
  | .int value => .int value
  | .float value => .float value
  | .text value => .text value
  | .list items => .list (ofItems items) none
  | .object fields => .object (ofFields fields) none

def ofItems : List Json → List Draft
  | [] => []
  | item :: rest => ofJson item :: ofItems rest

def ofFields : List (String × Json) → List (String × Draft)
  | [] => []
  | (name, value) :: rest => (name, ofJson value) :: ofFields rest

end

mutual

/-- The document of a draft; what went wrong is left out. -/
def toJson : Draft → Json
  | .null => .null
  | .bool value => .bool value
  | .int value => .int value
  | .float value => .float value
  | .text value => .text value
  | .list items _ => .list (toItems items)
  | .object fields _ => .object (toFields fields)
  | .unusable => .null
  | .broken _ => .null

def toItems : List Draft → List Json
  | [] => []
  | item :: rest => toJson item :: toItems rest

def toFields : List (String × Draft) → List (String × Json)
  | [] => []
  | (name, value) :: rest => (name, toJson value) :: toFields rest

end

end Draft

end CompositeGraph
