/-
  SYNTAX TREES.

  A program arrives as a tree of nodes.  A node has a range of tokens and a form; the form says what
  the node is and holds its children.  Children may be missing, since a tree is accepted as soon as
  its shape can be read.

    1. LEAVES.    `Range`, `Literal`, `Requirement` and the small enumerations of a form.
    2. THE TREE.  `Form ν` over the type of its children, and `Node`, a form with a range.
    3. LABELS.    `Label`, what documents call a form.
    4. VIEWS.     The name, identifier, operator symbol, statements and
modifiers of a node. -/

namespace CompositeGraph

/-- The tokens a node spans, by position. -/
structure Range where
  start : Nat := 0
  stop : Nat := 0
  deriving DecidableEq, Repr, Inhabited

/-- What stands in a literal: the text of its token, or a value. -/
inductive Literal where
  | text (value : String)
  | boolean (value : Bool)
  | integer (value : Int64)
  | float (value : Float)
  deriving Repr, Inhabited

/-- Whether a function has a property: it must not, it may, or it must. -/
inductive Requirement where
  | absent
  | optional
  | present
  deriving DecidableEq, Repr, Inhabited

/-- Where an operator stands to its operands. -/
inductive Fixity where
  | before
  | between
  | after
  deriving DecidableEq, Repr

/-- The sorts of literal that hold a payload. -/
inductive LiteralSort where
  | boolean
  | integer
  | float
  deriving DecidableEq, Repr

/-- The kinds of composite that a program declares. -/
inductive DeclaredKind where
  | «class»
  | «structure»
  | enumeration
  | protocol
  | «namespace»
  deriving DecidableEq, Repr

/-- What a type node adds to the type it wraps. -/
inductive TypeModifier where
  | nillable
  | default
  | inout
  | variadic
  | parenthesized
  deriving DecidableEq, Repr

/-- A function as declared. -/
structure FunctionParts (ν : Type) where
  modifiers : List String
  identifier : Option ν
  signature : Option ν
  body : Option ν

/-- A class, structure, enumeration, protocol or namespace as declared. -/
structure CompositeParts (ν : Type) where
  modifiers : List String
  identifier : Option ν
  genericParameters : List ν
  inheritedTypes : List ν
  body : Option ν

/-- A function signature as declared. -/
structure SignatureParts (ν : Type) where
  genericParameters : List ν := []
  parameters : List ν := []
  inits : Requirement := .absent
  deinits : Requirement := .absent
  awaits : Requirement := .absent
  throws : Requirement := .absent
  returnType : Option ν := none

/-- What a node is, over the type `ν` of its children. -/
inductive Form (ν : Type) where
  | module (statements : List ν)
  | body (statements : List ν)
  | identifier (name : String)
  | literal (sort : LiteralSort) (value : Literal)
  | nilLiteral
  | stringLiteral (segments : List ν)
  | stringSegment (text : String)
  | stringExpression (value : Option ν)
  | arrayLiteral (values : List ν)
  | dictionaryLiteral (entries : List ν)
  | entry (key value : Option ν)
  | parenthesized (value : Option ν)
  | sequence (values : List ν)
  | operator (fixity : Fixity) (symbol : String)
  | prefixed (operator operand : Option ν)
  | postfixed (operator operand : Option ν)
  | call (callee : Option ν) (genericArguments arguments : List ν) (closure : Option ν)
  | argument (label value : Option ν)
  | chain (composite member : Option ν)
  | subscript (composite : Option ν) (genericArguments arguments : List ν) (closure : Option ν)
  | inoutExpression (value : Option ν)
  | nillableExpression (value : Option ν)
  | tryExpression (nillable : Bool) (value : Option ν)
  | deleteExpression (value : Option ν)
  | typeExpression (type : Option ν)
  | functionExpression (parts : FunctionParts ν)
  | compositeExpression (kind : DeclaredKind) (parts : CompositeParts ν)
  | variableDeclaration (modifiers : List String) (declarators : List ν)
  | declarator (identifier type value body : Option ν)
  | observerDeclaration (identifier body : Option ν)
  | functionDeclaration (parts : FunctionParts ν)
  | initializerDeclaration (modifiers : List String) (nillable : Bool) (signature body : Option ν)
  | deinitializerDeclaration (body : Option ν)
  | signature (parts : SignatureParts ν)
  | parameter (label identifier type value : Option ν)
  | genericParameter (identifier type : Option ν)
  | compositeDeclaration (kind : DeclaredKind) (parts : CompositeParts ν)
  | operatorDeclaration (modifiers : List String) (operator body : Option ν)
  | importDeclaration (value : Option ν)
  | ifStatement (condition consequence alternative : Option ν)
  | whileStatement (condition body : Option ν)
  | returnStatement (value : Option ν)
  | throwStatement (value : Option ν)
  | breakStatement (label : Option ν)
  | continueStatement (label : Option ν)
  | predefinedType (name : String)
  | typeIdentifier (identifier : Option ν) (genericArguments : List ν)
  | arrayType (value : Option ν)
  | dictionaryType (key value : Option ν)
  | unionType (subtypes : List ν)
  | intersectionType (subtypes : List ν)
  | functionType (genericParameterTypes parameterTypes : List ν) (awaits throws : Requirement)
      (returnType : Option ν)
  | modifiedType (modifier : TypeModifier) (value : Option ν)
  | protocolType
  | unsupported

/-- A node of a syntax tree. -/
inductive Node where
  | mk (range : Range) (form : Form Node)

namespace Node

instance : Inhabited Node := ⟨.mk {} .unsupported⟩

def range : Node → Range
  | .mk range _ => range

def form : Node → Form Node
  | .mk _ form => form

/-- A node that no token stands for. -/
def bare (form : Form Node) : Node := .mk {} form

end Node

/-! ## Labels -/

/-- What a document calls a form, in the order of their positions. -/
inductive Label where
  | module
  | functionBody
  | identifier
  | booleanLiteral
  | integerLiteral
  | floatLiteral
  | nilLiteral
  | stringLiteral
  | stringSegment
  | stringExpression
  | arrayLiteral
  | dictionaryLiteral
  | entry
  | parenthesizedExpression
  | expressionsSequence
  | infixOperator
  | prefixOperator
  | postfixOperator
  | prefixExpression
  | postfixExpression
  | callExpression
  | argument
  | chainExpression
  | subscriptExpression
  | inoutExpression
  | nillableExpression
  | tryExpression
  | deleteExpression
  | typeExpression
  | functionExpression
  | classExpression
  | structureExpression
  | enumerationExpression
  | protocolExpression
  | namespaceExpression
  | variableDeclaration
  | declarator
  | observerDeclaration
  | functionDeclaration
  | initializerDeclaration
  | deinitializerDeclaration
  | functionSignature
  | parameter
  | genericParameter
  | classDeclaration
  | structureDeclaration
  | enumerationDeclaration
  | protocolDeclaration
  | namespaceDeclaration
  | operatorDeclaration
  | importDeclaration
  | ifStatement
  | whileStatement
  | returnStatement
  | throwStatement
  | breakStatement
  | continueStatement
  | predefinedType
  | typeIdentifier
  | arrayType
  | dictionaryType
  | unionType
  | intersectionType
  | functionType
  | nillableType
  | defaultType
  | inoutType
  | variadicType
  | parenthesizedType
  | protocolType
  | unsupported
  deriving DecidableEq, Repr

namespace Label

/-- All labels, by position. -/
def all : List Label :=
  [.module, .functionBody, .identifier, .booleanLiteral, .integerLiteral,
    .floatLiteral, .nilLiteral,
    .stringLiteral, .stringSegment, .stringExpression, .arrayLiteral, .dictionaryLiteral, .entry,
    .parenthesizedExpression, .expressionsSequence, .infixOperator,
    .prefixOperator, .postfixOperator,
    .prefixExpression, .postfixExpression, .callExpression, .argument, .chainExpression,
    .subscriptExpression,
    .inoutExpression, .nillableExpression, .tryExpression, .deleteExpression, .typeExpression,
    .functionExpression, .classExpression, .structureExpression, .enumerationExpression,
    .protocolExpression,
    .namespaceExpression, .variableDeclaration, .declarator, .observerDeclaration,
    .functionDeclaration,
    .initializerDeclaration, .deinitializerDeclaration, .functionSignature, .parameter,
    .genericParameter,
    .classDeclaration, .structureDeclaration, .enumerationDeclaration, .protocolDeclaration,
    .namespaceDeclaration, .operatorDeclaration, .importDeclaration, .ifStatement, .whileStatement,
    .returnStatement, .throwStatement, .breakStatement, .continueStatement,
    .predefinedType, .typeIdentifier,
    .arrayType, .dictionaryType, .unionType, .intersectionType, .functionType,
    .nillableType, .defaultType,
    .inoutType, .variadicType, .parenthesizedType, .protocolType, .unsupported]

/-- The written name. -/
def name : Label → String
  | .module => "module"
  | .functionBody => "functionBody"
  | .identifier => "identifier"
  | .booleanLiteral => "booleanLiteral"
  | .integerLiteral => "integerLiteral"
  | .floatLiteral => "floatLiteral"
  | .nilLiteral => "nilLiteral"
  | .stringLiteral => "stringLiteral"
  | .stringSegment => "stringSegment"
  | .stringExpression => "stringExpression"
  | .arrayLiteral => "arrayLiteral"
  | .dictionaryLiteral => "dictionaryLiteral"
  | .entry => "entry"
  | .parenthesizedExpression => "parenthesizedExpression"
  | .expressionsSequence => "expressionsSequence"
  | .infixOperator => "infixOperator"
  | .prefixOperator => "prefixOperator"
  | .postfixOperator => "postfixOperator"
  | .prefixExpression => "prefixExpression"
  | .postfixExpression => "postfixExpression"
  | .callExpression => "callExpression"
  | .argument => "argument"
  | .chainExpression => "chainExpression"
  | .subscriptExpression => "subscriptExpression"
  | .inoutExpression => "inoutExpression"
  | .nillableExpression => "nillableExpression"
  | .tryExpression => "tryExpression"
  | .deleteExpression => "deleteExpression"
  | .typeExpression => "typeExpression"
  | .functionExpression => "functionExpression"
  | .classExpression => "classExpression"
  | .structureExpression => "structureExpression"
  | .enumerationExpression => "enumerationExpression"
  | .protocolExpression => "protocolExpression"
  | .namespaceExpression => "namespaceExpression"
  | .variableDeclaration => "variableDeclaration"
  | .declarator => "declarator"
  | .observerDeclaration => "observerDeclaration"
  | .functionDeclaration => "functionDeclaration"
  | .initializerDeclaration => "initializerDeclaration"
  | .deinitializerDeclaration => "deinitializerDeclaration"
  | .functionSignature => "functionSignature"
  | .parameter => "parameter"
  | .genericParameter => "genericParameter"
  | .classDeclaration => "classDeclaration"
  | .structureDeclaration => "structureDeclaration"
  | .enumerationDeclaration => "enumerationDeclaration"
  | .protocolDeclaration => "protocolDeclaration"
  | .namespaceDeclaration => "namespaceDeclaration"
  | .operatorDeclaration => "operatorDeclaration"
  | .importDeclaration => "importDeclaration"
  | .ifStatement => "ifStatement"
  | .whileStatement => "whileStatement"
  | .returnStatement => "returnStatement"
  | .throwStatement => "throwStatement"
  | .breakStatement => "breakStatement"
  | .continueStatement => "continueStatement"
  | .predefinedType => "predefinedType"
  | .typeIdentifier => "typeIdentifier"
  | .arrayType => "arrayType"
  | .dictionaryType => "dictionaryType"
  | .unionType => "unionType"
  | .intersectionType => "intersectionType"
  | .functionType => "functionType"
  | .nillableType => "nillableType"
  | .defaultType => "defaultType"
  | .inoutType => "inoutType"
  | .variadicType => "variadicType"
  | .parenthesizedType => "parenthesizedType"
  | .protocolType => "protocolType"
  | .unsupported => "unsupported"

/-- The label of a name. -/
def ofName (name : String) : Option Label := all.find? fun label => label.name == name

end Label

namespace Form

variable {ν : Type}

/-- What a form is called. -/
def label : Form ν → Label
  | .module _ => .module
  | .body _ => .functionBody
  | .identifier _ => .identifier
  | .literal .boolean _ => .booleanLiteral
  | .literal .integer _ => .integerLiteral
  | .literal .float _ => .floatLiteral
  | .nilLiteral => .nilLiteral
  | .stringLiteral _ => .stringLiteral
  | .stringSegment _ => .stringSegment
  | .stringExpression _ => .stringExpression
  | .arrayLiteral _ => .arrayLiteral
  | .dictionaryLiteral _ => .dictionaryLiteral
  | .entry _ _ => .entry
  | .parenthesized _ => .parenthesizedExpression
  | .sequence _ => .expressionsSequence
  | .operator .between _ => .infixOperator
  | .operator .before _ => .prefixOperator
  | .operator .after _ => .postfixOperator
  | .prefixed _ _ => .prefixExpression
  | .postfixed _ _ => .postfixExpression
  | .call _ _ _ _ => .callExpression
  | .argument _ _ => .argument
  | .chain _ _ => .chainExpression
  | .subscript _ _ _ _ => .subscriptExpression
  | .inoutExpression _ => .inoutExpression
  | .nillableExpression _ => .nillableExpression
  | .tryExpression _ _ => .tryExpression
  | .deleteExpression _ => .deleteExpression
  | .typeExpression _ => .typeExpression
  | .functionExpression _ => .functionExpression
  | .compositeExpression .class _ => .classExpression
  | .compositeExpression .structure _ => .structureExpression
  | .compositeExpression .enumeration _ => .enumerationExpression
  | .compositeExpression .protocol _ => .protocolExpression
  | .compositeExpression .namespace _ => .namespaceExpression
  | .variableDeclaration _ _ => .variableDeclaration
  | .declarator _ _ _ _ => .declarator
  | .observerDeclaration _ _ => .observerDeclaration
  | .functionDeclaration _ => .functionDeclaration
  | .initializerDeclaration _ _ _ _ => .initializerDeclaration
  | .deinitializerDeclaration _ => .deinitializerDeclaration
  | .signature _ => .functionSignature
  | .parameter _ _ _ _ => .parameter
  | .genericParameter _ _ => .genericParameter
  | .compositeDeclaration .class _ => .classDeclaration
  | .compositeDeclaration .structure _ => .structureDeclaration
  | .compositeDeclaration .enumeration _ => .enumerationDeclaration
  | .compositeDeclaration .protocol _ => .protocolDeclaration
  | .compositeDeclaration .namespace _ => .namespaceDeclaration
  | .operatorDeclaration _ _ _ => .operatorDeclaration
  | .importDeclaration _ => .importDeclaration
  | .ifStatement _ _ _ => .ifStatement
  | .whileStatement _ _ => .whileStatement
  | .returnStatement _ => .returnStatement
  | .throwStatement _ => .throwStatement
  | .breakStatement _ => .breakStatement
  | .continueStatement _ => .continueStatement
  | .predefinedType _ => .predefinedType
  | .typeIdentifier _ _ => .typeIdentifier
  | .arrayType _ => .arrayType
  | .dictionaryType _ _ => .dictionaryType
  | .unionType _ => .unionType
  | .intersectionType _ => .intersectionType
  | .functionType _ _ _ _ _ => .functionType
  | .modifiedType .nillable _ => .nillableType
  | .modifiedType .default _ => .defaultType
  | .modifiedType .inout _ => .inoutType
  | .modifiedType .variadic _ => .variadicType
  | .modifiedType .parenthesized _ => .parenthesizedType
  | .protocolType => .protocolType
  | .unsupported => .unsupported

/-- The name of a form in documents and reports. -/
def name (form : Form ν) : String := form.label.name

/-- Modifiers of a declaration, none for other forms. -/
def modifiers : Form ν → List String
  | .variableDeclaration modifiers _ => modifiers
  | .initializerDeclaration modifiers _ _ _ => modifiers
  | .operatorDeclaration modifiers _ _ => modifiers
  | .functionDeclaration parts => parts.modifiers
  | .compositeDeclaration _ parts => parts.modifiers
  | _ => []

end Form

/-! ## Views of a node -/

namespace Node

/-- The name of the node's form. -/
def typeName (node : Node) : String := node.form.name

/-- The name in an identifier node. -/
def identifier? (node : Node) : Option String :=
  match node.form with
  | .identifier name => some name
  | _ => none

/-- The symbol in an operator node of any fixity. -/
def operator? (node : Node) : Option String :=
  match node.form with
  | .operator _ symbol => some symbol
  | _ => none

/-- The statements of a body or module. -/
def statements (node : Node) : List Node :=
  match node.form with
  | .module statements => statements
  | .body statements => statements
  | _ => []

def modifiers (node : Node) : List String := node.form.modifiers

end Node

end CompositeGraph
