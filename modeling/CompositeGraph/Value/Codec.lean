/-
  VALUES IN JSON: an object with the sort of the value and its contents.

  The sort says how the contents are read.  When the contents come first they are held back until
  the sort is known.  The two may also be given as a list of two.
-/
import CompositeGraph.Value.Basic
import CompositeGraph.TypeTree.Codec

namespace CompositeGraph.Value

/-! ## Writing -/

/-- Contents with their sort. -/
def labelled (primitive : Primitive) (contents : Json) : Json :=
  .object [("primitiveType", .text primitive.name), ("primitiveValue", contents)]

mutual

def toJson : Value → Json
  | .boolean value => labelled .boolean (.bool value)
  | .integer value => labelled .integer (.int value.toInt)
  | .float value => labelled .float (.ofFloat value)
  | .string value => labelled .string (.text value)
  | .dictionary entries => labelled .dictionary (.list (entriesJson entries))
  | .type tree => labelled .type tree.toJson
  | .pointer handle => labelled .pointer handle.toJson
  | .reference handle => labelled .reference handle.toJson

def entriesJson : List (Value × Option Value) → List Json
  | [] => []
  | (key, value) :: rest => .list [toJson key, optionJson value] :: entriesJson rest

def optionJson : Option Value → Json
  | none => .null
  | some value => toJson value

end

/-! ## Reading -/

/-- Decodes the contents of a value of a given sort, with what decodes the values inside. -/
def contents (value : Decoder Value) (pass : Pass) (levels : Nat) (draft : Draft) :
    Primitive → Except Fault Value
  | .boolean => .boolean <$> Decoder.bool pass levels draft
  | .integer => .integer <$> Decoder.word pass levels draft
  | .float => .float <$> Decoder.float pass levels draft
  | .string => .string <$> Decoder.text pass levels draft
  | .dictionary =>
    .dictionary <$> Decoder.list (Decoder.pair value (Decoder.nullable value)) pass levels draft
  | .type => .type <$> TypeTree.decoder pass levels draft
  | .pointer => .pointer <$> Handle.decoder pass levels draft
  | .reference => .reference <$> Handle.decoder pass levels draft

/-- What has been read of a value. -/
inductive Progress where
  | nothing
  | sort (primitive : Primitive)
  | held (draft : Draft)
  | whole (value : Value)

/-- Decodes the fields of a value in the order of the document. -/
def fromFields (value : Decoder Value) (pass : Pass) (levels : Nat) :
    List (String × Draft) → Progress → Except Fault Progress
  | [], progress => .ok progress
  | ("primitiveType", draft) :: rest, progress => do
    match progress with
    | .nothing =>
      let primitive ← Decoder.name Primitive.ofName pass levels draft
      fromFields value pass levels rest (.sort primitive)
    | .held kept =>
      let primitive ← Decoder.name Primitive.ofName pass levels draft
      let found ← contents value .held levels kept primitive
      fromFields value pass levels rest (.whole found)
    | _ => .error .mismatched
  | ("primitiveValue", draft) :: rest, progress => do
    match progress with
    | .nothing =>
      draft.settle levels
      fromFields value pass levels rest (.held draft)
    | .sort primitive =>
      let found ← contents value pass levels draft primitive
      fromFields value pass levels rest (.whole found)
    | _ => .error .mismatched
  | (_, draft) :: rest, progress => do
    draft.skip
    fromFields value pass levels rest progress

/-- Decodes a value, in which values nest at most `depth` deep. -/
def decoderTo : (depth : Nat) → Decoder Value
  | 0 => fun _ _ _ => .error .malformed
  | depth + 1 => fun pass levels draft =>
    match draft with
    | .object fields fault => do
      let levels ← Decoder.inside levels
      let progress ← fromFields (decoderTo depth) pass levels fields .nothing
      Draft.raise fault
      match progress with
      | .whole value => return value
      | _ => .error .mismatched
    | .list items fault => do
      let levels ← Decoder.inside levels
      match items with
      | [] => do Draft.raise fault; .error .mismatched
      | sort :: rest => do
        let primitive ← Decoder.name Primitive.ofName pass levels sort
        match rest with
        | [] => do Draft.raise fault; .error .mismatched
        | draft :: more => do
          let value ← contents (decoderTo depth) pass levels draft primitive
          if !more.isEmpty then .error (Decoder.surplus pass)
          Draft.raise fault
          return value
    | draft => Decoder.unexpected draft

/-- Decodes a value; the limit on nesting bounds its depth. -/
def decoder : Decoder Value := decoderTo (nestingLimit + 1)

end CompositeGraph.Value
