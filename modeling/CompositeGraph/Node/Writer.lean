/-
  WRITING syntax trees as JSON.

  A node is an object with its range, its form's name and all fields of the form in the order of
  the declaration: a missing child as `null`, a list without items as `[]`.

    1. LEAVES.    Ranges, requirements, and literals: as they are written, and as they are.
    2. NODES.     `Node.document`, for either way to put down a literal, and `Node.toJson`.
    3. EQUALITY.  Two nodes are the same if they have the same range, the same form and the same
                  fields.  A float that has no digits is written `null`, so what is compared is not
                  what is written.
-/
import CompositeGraph.Json.Basic
import CompositeGraph.Node.Basic

namespace CompositeGraph

def Range.toJson (range : Range) : Json :=
  .object [("start", .ofNat range.start), ("end", .ofNat range.stop)]

/-- A literal as it is: each sort of literal is another sort of leaf. -/
def Literal.exact : Literal → Json
  | .text value => .text value
  | .boolean value => .bool value
  | .integer value => .int value.toInt
  | .float value => .float value

/-- A literal as it is written. -/
def Literal.toJson : Literal → Json
  | .float value => .ofFloat value
  | literal => literal.exact

/-- A requirement as a sign: what must not be is negative, what must be positive. -/
def Requirement.toInt : Requirement → Int
  | .absent => -1
  | .optional => 0
  | .present => 1

def Requirement.toJson (requirement : Requirement) : Json := .int requirement.toInt

def Json.ofTexts (texts : List String) : Json := .list (texts.map .text)

namespace Node

section Documents

variable (literal : Literal → Json)

mutual

/-- A node as a document. -/
def document : Node → Json
  | .mk range form => .object (("range", range.toJson) :: ("type", .text form.name) :: fields form)

/-- The fields of a form, in the order of its declaration. -/
def fields : Form Node → List (String × Json)
  | .module statements => [("statements", .list (nodes statements))]
  | .body statements => [("statements", .list (nodes statements))]
  | .identifier name => [("value", .text name)]
  | .literal _ value => [("value", literal value)]
  | .nilLiteral => []
  | .stringLiteral segments => [("segments", .list (nodes segments))]
  | .stringSegment text => [("value", .text text)]
  | .stringExpression value => [("value", child value)]
  | .arrayLiteral values => [("values", .list (nodes values))]
  | .dictionaryLiteral entries => [("entries", .list (nodes entries))]
  | .entry key value => [("key", child key), ("value", child value)]
  | .parenthesized value => [("value", child value)]
  | .sequence values => [("values", .list (nodes values))]
  | .operator _ symbol => [("value", .text symbol)]
  | .prefixed operator operand => [("operator", child operator), ("value", child operand)]
  | .postfixed operator operand => [("operator", child operator), ("value", child operand)]
  | .call callee genericArguments arguments closure =>
    [("callee", child callee), ("genericArguments", .list (nodes genericArguments)),
      ("arguments", .list (nodes arguments)), ("closure", child closure)]
  | .argument label value => [("label", child label), ("value", child value)]
  | .chain composite member => [("composite", child composite), ("member", child member)]
  | .subscript composite genericArguments arguments closure =>
    [("composite", child composite), ("genericArguments", .list (nodes genericArguments)),
      ("arguments", .list (nodes arguments)), ("closure", child closure)]
  | .inoutExpression value => [("value", child value)]
  | .nillableExpression value => [("value", child value)]
  | .tryExpression nillable value => [("nillable", .bool nillable), ("value", child value)]
  | .deleteExpression value => [("value", child value)]
  | .typeExpression type => [("type_", child type)]
  | .functionExpression parts => functionFields parts
  | .compositeExpression _ parts => compositeFields parts
  | .variableDeclaration modifiers declarators =>
    [("modifiers", .ofTexts modifiers), ("declarators", .list (nodes declarators))]
  | .declarator identifier type value body =>
    [("identifier", child identifier), ("type_", child type), ("value", child value),
      ("body", child body)]
  | .observerDeclaration identifier body => [("identifier", child identifier), ("body", child body)]
  | .functionDeclaration parts => functionFields parts
  | .initializerDeclaration modifiers nillable signature body =>
    [("modifiers", .ofTexts modifiers), ("nillable", .bool nillable),
      ("signature", child signature), ("body", child body)]
  | .deinitializerDeclaration body => [("body", child body)]
  | .signature ⟨genericParameters, parameters, inits, deinits, awaits, throws, returnType⟩ =>
    [("genericParameters", .list (nodes genericParameters)),
      ("parameters", .list (nodes parameters)),
      ("inits", inits.toJson), ("deinits", deinits.toJson), ("awaits", awaits.toJson),
      ("throws", throws.toJson), ("returnType", child returnType)]
  | .parameter label identifier type value =>
    [("label", child label), ("identifier", child identifier), ("type_", child type),
      ("value", child value)]
  | .genericParameter identifier type => [("identifier", child identifier), ("type_", child type)]
  | .compositeDeclaration _ parts => compositeFields parts
  | .operatorDeclaration modifiers operator body =>
    [("modifiers", .ofTexts modifiers), ("operator", child operator), ("body", child body)]
  | .importDeclaration value => [("value", child value)]
  | .ifStatement condition consequence alternative =>
    [("condition", child condition), ("then", child consequence), ("else", child alternative)]
  | .whileStatement condition body => [("condition", child condition), ("value", child body)]
  | .returnStatement value => [("value", child value)]
  | .throwStatement value => [("value", child value)]
  | .breakStatement label => [("label", child label)]
  | .continueStatement label => [("label", child label)]
  | .predefinedType name => [("value", .text name)]
  | .typeIdentifier identifier genericArguments =>
    [("identifier", child identifier), ("genericArguments", .list (nodes genericArguments))]
  | .arrayType value => [("value", child value)]
  | .dictionaryType key value => [("key", child key), ("value", child value)]
  | .unionType subtypes => [("subtypes", .list (nodes subtypes))]
  | .intersectionType subtypes => [("subtypes", .list (nodes subtypes))]
  | .functionType genericParameterTypes parameterTypes awaits throws returnType =>
    [("genericParameterTypes", .list (nodes genericParameterTypes)),
      ("parameterTypes", .list (nodes parameterTypes)), ("awaits", awaits.toJson),
      ("throws", throws.toJson), ("returnType", child returnType)]
  | .modifiedType _ value => [("value", child value)]
  | .protocolType => []
  | .unsupported => []

def functionFields : FunctionParts Node → List (String × Json)
  | ⟨modifiers, identifier, signature, body⟩ =>
    [("modifiers", .ofTexts modifiers), ("identifier", child identifier),
      ("signature", child signature), ("body", child body)]

def compositeFields : CompositeParts Node → List (String × Json)
  | ⟨modifiers, identifier, genericParameters, inheritedTypes, body⟩ =>
    [("modifiers", .ofTexts modifiers), ("identifier", child identifier),
      ("genericParameters", .list (nodes genericParameters)),
      ("inheritedTypes", .list (nodes inheritedTypes)), ("body", child body)]

def child : Option Node → Json
  | none => .null
  | some node => document node

def nodes : List Node → List Json
  | [] => []
  | node :: rest => document node :: nodes rest

end

end Documents

/-- A node as JSON. -/
def toJson (node : Node) : Json := node.document Literal.toJson

/-- Whether two nodes agree in everything that is in them; floats by their own comparison. -/
def same (a b : Node) : Bool := a.document Literal.exact == b.document Literal.exact

instance : BEq Node := ⟨same⟩

end Node

end CompositeGraph
