/-
  TYPES IN JSON: a list of parts, each an object with only those fields that are set.
-/
import CompositeGraph.TypeTree.Basic
import CompositeGraph.Node.Decoder

namespace CompositeGraph

namespace TypePart

/-- A flag is written only when it is set. -/
def flagField (name : String) (flag : Bool) : List (String × Json) :=
  if flag then [(name, .bool true)] else []

/-- A field is written only when it is there. -/
def optionField {α : Type} (name : String) (write : α → Json) : Option α → List (String × Json)
  | none => []
  | some value => [(name, write value)]

def toJson (part : TypePart) : Json :=
  .object <|
    optionField "super" .ofNat part.parent ++
    optionField "predefined" (fun p => .text p.name) part.predefined ++
    optionField "reference" Handle.toJson part.reference ++
    flagField "nillable" part.nillable ++
    flagField "default" part.default ++
    flagField "variadic" part.variadic ++
    flagField "inout" part.inout ++
    flagField "union" part.union ++
    flagField "intersection" part.intersection ++
    flagField "array" part.array ++
    flagField "dictionary" part.dictionary ++
    flagField "genericParameters" part.genericParameters ++
    flagField "parameters" part.parameters ++
    flagField "genericArguments" part.genericArguments ++
    flagField "inheritedTypes" part.inheritedTypes ++
    flagField "self" part.isSelf ++
    optionField "throws" Requirement.toJson part.throws ++
    optionField "awaits" Requirement.toJson part.awaits ++
    optionField "inits" Requirement.toJson part.inits ++
    optionField "deinits" Requirement.toJson part.deinits ++
    optionField "label" .text part.label ++
    optionField "identifier" .text part.identifier ++
    optionField "value" Node.toJson part.value

/-- A flag of a part, false when left out. -/
def flag (name : String) (put : Bool → TypePart → TypePart) : Decoder.Field TypePart :=
  Decoder.field name .defaulted Decoder.bool put

/-- A field of a part that may be left out or `null`. -/
def optional {α : Type} (name : String) (decoder : Decoder α)
    (put : Option α → TypePart → TypePart) : Decoder.Field TypePart :=
  Decoder.field name .defaulted (Decoder.nullable decoder) put

def decoder : Decoder TypePart :=
  Decoder.record {}
    [optional "super" (Decoder.natural 64) fun v part => { part with parent := v },
      optional "predefined" (Decoder.name Predefined.ofName) fun v part =>
        { part with predefined := v },
      optional "reference" Handle.decoder fun v part => { part with reference := v },
      flag "nillable" fun v part => { part with nillable := v },
      flag "default" fun v part => { part with default := v },
      flag "variadic" fun v part => { part with variadic := v },
      flag "inout" fun v part => { part with inout := v },
      flag "union" fun v part => { part with union := v },
      flag "intersection" fun v part => { part with intersection := v },
      flag "array" fun v part => { part with array := v },
      flag "dictionary" fun v part => { part with dictionary := v },
      flag "genericParameters" fun v part => { part with genericParameters := v },
      flag "parameters" fun v part => { part with parameters := v },
      flag "genericArguments" fun v part => { part with genericArguments := v },
      flag "inheritedTypes" fun v part => { part with inheritedTypes := v },
      flag "self" fun v part => { part with isSelf := v },
      optional "throws" Requirement.decoder fun v part => { part with throws := v },
      optional "awaits" Requirement.decoder fun v part => { part with awaits := v },
      optional "inits" Requirement.decoder fun v part => { part with inits := v },
      optional "deinits" Requirement.decoder fun v part => { part with deinits := v },
      optional "label" Decoder.text fun v part => { part with label := v },
      optional "identifier" Decoder.text fun v part => { part with identifier := v },
      optional "value" Node.decoder fun v part => { part with value := v }]

end TypePart

namespace TypeTree

def toJson (type : TypeTree) : Json := .list (type.parts.map TypePart.toJson)

def decoder : Decoder TypeTree :=
  fun pass levels draft => TypeTree.mk <$> Decoder.list TypePart.decoder pass levels draft

end TypeTree

end CompositeGraph
