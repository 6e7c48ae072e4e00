/-
  JSON DOCUMENTS as trees.

  Objects keep their fields in the order they were written, repeated names included: what a
  repeated name means is for the reader of an object to say.  Integers and floats are different
  leaves, because `1` and `1.0` are read and written differently.

    1. THE TREE.      `Json`, with `Json.ofOption` for what may be absent.
    2. EQUALITY.      `Json.same`: structural, floats by their own comparison, so that no tree
                      holding a NaN is the same as itself.
-/

namespace CompositeGraph

/-- A JSON document. -/
inductive Json where
  | null
  | bool (value : Bool)
  | int (value : Int)
  | float (value : Float)
  | text (value : String)
  | list (items : List Json)
  | object (fields : List (String × Json))
  deriving Inhabited

namespace Json

/-- Absence is written `null`. -/
def ofOption {α : Type} (write : α → Json) : Option α → Json
  | none => .null
  | some a => write a

/-- A float that has no digits (infinite or not a number) is written `null`. -/
def ofFloat (value : Float) : Json :=
  if value.isFinite then .float value else .null

def ofNat (value : Nat) : Json := .int value

/-! ## Equality -/

mutual

/-- Same shape and same leaves. -/
def same : Json → Json → Bool
  | .null, .null => true
  | .bool a, .bool b => a == b
  | .int a, .int b => a == b
  | .float a, .float b => a == b
  | .text a, .text b => a == b
  | .list a, .list b => sameList a b
  | .object a, .object b => sameFields a b
  | _, _ => false

def sameList : List Json → List Json → Bool
  | [], [] => true
  | a :: as, b :: bs => same a b && sameList as bs
  | _, _ => false

def sameFields : List (String × Json) → List (String × Json) → Bool
  | [], [] => true
  | (m, a) :: as, (n, b) :: bs => m == n && same a b && sameFields as bs
  | _, _ => false

end

instance : BEq Json := ⟨same⟩

end Json

end CompositeGraph
