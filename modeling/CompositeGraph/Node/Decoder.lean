/-
  READING syntax trees from JSON.

  The range of a node is decoded where it stands.  Everything else about a node depends on its
  `type`, which may come last, so those fields are held back until the object ends and are decoded
  together.  Unknown fields are ignored, and a node of an unknown type is `unsupported`.

    1. LABELS.   A type is given by the name of its label or by its position.
                 Bodies have several names.
    2. FIELDS.   Looking a field up by name in what was held back: at most once, by its shape.
    3. NODES.    `Node.decoder`.
-/
import CompositeGraph.Json.Decoder
import CompositeGraph.Node.Basic

namespace CompositeGraph

open Decoder (Presence field)

/-! ## Leaves -/

def Range.decoder : Decoder Range :=
  Decoder.record {}
    [field "start" .defaulted (Decoder.natural 64) fun value range => { range with start := value },
      field "end" .defaulted (Decoder.natural 64) fun value range => { range with stop := value }]

/-- A literal is the first of string, boolean, integer and float that fits. -/
def Literal.decoder : Decoder Literal
  | _, _, .text value => .ok (.text value)
  | _, _, .bool value => .ok (.boolean value)
  | pass, levels, .int value =>
    if Word.fits value then .ok (.integer (Int64.ofInt value))
    else .float <$> Decoder.float pass levels (.int value)
  | _, _, .float value => .ok (.float value)
  | _, _, draft => Decoder.unexpected draft

/-- Any negative number stands for what must not be, any positive one for what must be. -/
def Requirement.ofInt (value : Int) : Requirement :=
  if value < 0 then .absent else if value = 0 then .optional else .present

def Requirement.decoder : Decoder Requirement :=
  fun pass levels draft => Requirement.ofInt <$> Decoder.integer (-128) 127 pass levels draft

/-! ## Labels -/

namespace Form

/-- Other names of a body, by what it is the body of. -/
def bodyNames : List String :=
  ["classBody", "structureBody", "enumerationBody", "protocolBody",
    "namespaceBody", "observersBody", "operatorBody"]

/-- The label a `type` field stands for; a name or position that is not known is `unsupported`. -/
def labelOf : Draft → Except Fault Label
  | .text name =>
    .ok (if bodyNames.contains name then .functionBody else (Label.ofName name).getD .unsupported)
  | .int position =>
    if position < 0 then .error .mismatched else .ok (Label.all.getD position.toNat .unsupported)
  | draft => Decoder.unexpected draft

end Form

namespace Node

/-! ## Fields held back -/

/-- The fields of a node other than its range, with what decodes a child. -/
structure Held where
  fields : List (String × Draft)
  levels : Nat
  node : Decoder Node

namespace Held

variable {α : Type}

/-- The draft of a field that occurs at most once. -/
def find (held : Held) (name : String) : Except Fault (Option Draft) :=
  match held.fields.filter (·.1 == name) with
  | [] => .ok none
  | [(_, draft)] => .ok (some draft)
  | _ => .error .mismatched

/-- A field that has a default. -/
def orElse (held : Held) (name : String) (default : α) (decoder : Decoder α) : Except Fault α := do
  match ← held.find name with
  | none => return default
  | some draft => decoder .held held.levels draft

/-- A field that has none. -/
def need (held : Held) (name : String) (decoder : Decoder α) : Except Fault α := do
  match ← held.find name with
  | none => .error .mismatched
  | some draft => decoder .held held.levels draft

def text (held : Held) (name : String) : Except Fault String := held.need name Decoder.text

def flag (held : Held) (name : String) : Except Fault Bool := held.orElse name false Decoder.bool

def texts (held : Held) (name : String) : Except Fault (List String) :=
  held.orElse name [] (Decoder.list Decoder.text)

def requirement (held : Held) (name : String) : Except Fault Requirement :=
  held.orElse name .absent Requirement.decoder

def child (held : Held) (name : String) : Except Fault (Option Node) :=
  held.orElse name none (Decoder.nullable held.node)

def nodes (held : Held) (name : String) : Except Fault (List Node) :=
  held.orElse name [] (Decoder.list held.node)

def functionParts (held : Held) : Except Fault (FunctionParts Node) := do
  return ⟨← held.texts "modifiers", ← held.child "identifier", ← held.child "signature",
    ← held.child "body"⟩

def compositeParts (held : Held) : Except Fault (CompositeParts Node) := do
  return ⟨← held.texts "modifiers", ← held.child "identifier", ← held.nodes "genericParameters",
    ← held.nodes "inheritedTypes", ← held.child "body"⟩

def signatureParts (held : Held) : Except Fault (SignatureParts Node) := do
  return ⟨← held.nodes "genericParameters", ← held.nodes "parameters", ← held.requirement "inits",
    ← held.requirement "deinits", ← held.requirement "awaits", ← held.requirement "throws",
    ← held.child "returnType"⟩

/-- The form of a given label. -/
def form (held : Held) : Label → Except Fault (Form Node)
  | .module => return .module (← held.nodes "statements")
  | .functionBody => return .body (← held.nodes "statements")
  | .identifier => return .identifier (← held.text "value")
  | .booleanLiteral => return .literal .boolean (← held.need "value" Literal.decoder)
  | .integerLiteral => return .literal .integer (← held.need "value" Literal.decoder)
  | .floatLiteral => return .literal .float (← held.need "value" Literal.decoder)
  | .nilLiteral => return .nilLiteral
  | .stringLiteral => return .stringLiteral (← held.nodes "segments")
  | .stringSegment => return .stringSegment (← held.text "value")
  | .stringExpression => return .stringExpression (← held.child "value")
  | .arrayLiteral => return .arrayLiteral (← held.nodes "values")
  | .dictionaryLiteral => return .dictionaryLiteral (← held.nodes "entries")
  | .entry => return .entry (← held.child "key") (← held.child "value")
  | .parenthesizedExpression => return .parenthesized (← held.child "value")
  | .expressionsSequence => return .sequence (← held.nodes "values")
  | .infixOperator => return .operator .between (← held.text "value")
  | .prefixOperator => return .operator .before (← held.text "value")
  | .postfixOperator => return .operator .after (← held.text "value")
  | .prefixExpression => return .prefixed (← held.child "operator") (← held.child "value")
  | .postfixExpression => return .postfixed (← held.child "operator") (← held.child "value")
  | .callExpression =>
    return .call (← held.child "callee") (← held.nodes "genericArguments")
      (← held.nodes "arguments")
      (← held.child "closure")
  | .argument => return .argument (← held.child "label") (← held.child "value")
  | .chainExpression => return .chain (← held.child "composite") (← held.child "member")
  | .subscriptExpression =>
    return .subscript (← held.child "composite") (← held.nodes "genericArguments")
      (← held.nodes "arguments") (← held.child "closure")
  | .inoutExpression => return .inoutExpression (← held.child "value")
  | .nillableExpression => return .nillableExpression (← held.child "value")
  | .tryExpression => return .tryExpression (← held.flag "nillable") (← held.child "value")
  | .deleteExpression => return .deleteExpression (← held.child "value")
  | .typeExpression => return .typeExpression (← held.child "type_")
  | .functionExpression => return .functionExpression (← held.functionParts)
  | .classExpression => return .compositeExpression .class (← held.compositeParts)
  | .structureExpression => return .compositeExpression .structure (← held.compositeParts)
  | .enumerationExpression => return .compositeExpression .enumeration (← held.compositeParts)
  | .protocolExpression => return .compositeExpression .protocol (← held.compositeParts)
  | .namespaceExpression => return .compositeExpression .namespace (← held.compositeParts)
  | .variableDeclaration =>
    return .variableDeclaration (← held.texts "modifiers") (← held.nodes "declarators")
  | .declarator =>
    return .declarator (← held.child "identifier") (← held.child "type_") (← held.child "value")
      (← held.child "body")
  | .observerDeclaration =>
    return .observerDeclaration (← held.child "identifier") (← held.child "body")
  | .functionDeclaration => return .functionDeclaration (← held.functionParts)
  | .initializerDeclaration =>
    return .initializerDeclaration (← held.texts "modifiers") (← held.flag "nillable")
      (← held.child "signature") (← held.child "body")
  | .deinitializerDeclaration => return .deinitializerDeclaration (← held.child "body")
  | .functionSignature => return .signature (← held.signatureParts)
  | .parameter =>
    return .parameter (← held.child "label") (← held.child "identifier") (← held.child "type_")
      (← held.child "value")
  | .genericParameter => return .genericParameter (← held.child "identifier") (← held.child "type_")
  | .classDeclaration => return .compositeDeclaration .class (← held.compositeParts)
  | .structureDeclaration => return .compositeDeclaration .structure (← held.compositeParts)
  | .enumerationDeclaration => return .compositeDeclaration .enumeration (← held.compositeParts)
  | .protocolDeclaration => return .compositeDeclaration .protocol (← held.compositeParts)
  | .namespaceDeclaration => return .compositeDeclaration .namespace (← held.compositeParts)
  | .operatorDeclaration =>
    return .operatorDeclaration (← held.texts "modifiers") (← held.child "operator")
      (← held.child "body")
  | .importDeclaration => return .importDeclaration (← held.child "value")
  | .ifStatement =>
    return .ifStatement (← held.child "condition") (← held.child "then") (← held.child "else")
  | .whileStatement => return .whileStatement (← held.child "condition") (← held.child "value")
  | .returnStatement => return .returnStatement (← held.child "value")
  | .throwStatement => return .throwStatement (← held.child "value")
  | .breakStatement => return .breakStatement (← held.child "label")
  | .continueStatement => return .continueStatement (← held.child "label")
  | .predefinedType => return .predefinedType (← held.text "value")
  | .typeIdentifier =>
    return .typeIdentifier (← held.child "identifier") (← held.nodes "genericArguments")
  | .arrayType => return .arrayType (← held.child "value")
  | .dictionaryType => return .dictionaryType (← held.child "key") (← held.child "value")
  | .unionType => return .unionType (← held.nodes "subtypes")
  | .intersectionType => return .intersectionType (← held.nodes "subtypes")
  | .functionType =>
    return .functionType (← held.nodes "genericParameterTypes") (← held.nodes "parameterTypes")
      (← held.requirement "awaits") (← held.requirement "throws") (← held.child "returnType")
  | .nillableType => return .modifiedType .nillable (← held.child "value")
  | .defaultType => return .modifiedType .default (← held.child "value")
  | .inoutType => return .modifiedType .inout (← held.child "value")
  | .variadicType => return .modifiedType .variadic (← held.child "value")
  | .parenthesizedType => return .modifiedType .parenthesized (← held.child "value")
  | .protocolType => return .protocolType
  | .unsupported => return .unsupported

end Held

/-! ## Nodes -/

/-- Decodes the range where it stands and settles everything else, unless that was done when the
    node itself was held back. -/
def rangeAndRest (pass : Pass) (levels : Nat) :
    List (String × Draft) → Option Range → Except Fault (Option Range)
  | [], range => .ok range
  | (name, draft) :: rest, range => do
    if name == "range" then
      if range.isSome then .error .mismatched
      let found ← Range.decoder pass levels draft
      rangeAndRest pass levels rest (some found)
    else
      if pass = .direct then draft.settle levels
      rangeAndRest pass levels rest range

/-- Decodes a node, whose children nest at most `depth` deep. -/
def decoderTo : (depth : Nat) → Decoder Node
  | 0 => fun _ _ _ => .error .malformed
  | depth + 1 => fun pass levels draft =>
    match draft with
    | .object fields fault => do
      let levels ← Decoder.inside levels
      let range ← rangeAndRest pass levels fields none
      Draft.raise fault
      let held : Held := ⟨fields, levels, decoderTo depth⟩
      match ← held.find "type" with
      | none => .error .mismatched
      | some tag => return .mk (range.getD {}) (← held.form (← Form.labelOf tag))
    | draft => Decoder.unexpected draft

/-- Decodes a node; the limit on nesting bounds its depth. -/
def decoder : Decoder Node := decoderTo (nestingLimit + 1)

end Node

end CompositeGraph
