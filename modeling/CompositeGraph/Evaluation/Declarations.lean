/-
  DECLARATIONS.

  The body of a class or structure is split when it is declared.  Static statements, initializers
  and deinitializers run at once, in the composite itself; all others are kept and run in each new
  object.  Functions are in both parts: in the class they are only there if their own body has
  static statements, and each object declares them anew.
-/
import CompositeGraph.Evaluation.Expressions

namespace CompositeGraph

/-! ## Splitting a body -/

/-- Whether a statement runs when the body around it is declared. -/
def Node.isStatic (node : Node) : Bool :=
  match node.form with
  | .initializerDeclaration _ _ _ _ => true
  | .deinitializerDeclaration _ => true
  | _ => node.modifiers.contains "static"

def Node.isFunctionDeclaration (node : Node) : Bool :=
  match node.form with
  | .functionDeclaration _ => true
  | _ => false

/-- The statements that run at once. -/
def staticStatements (statements : List Node) : List Node :=
  statements.filter fun node => node.isStatic || node.isFunctionDeclaration

/-- The statements that objects run. -/
def objectStatements (statements : List Node) : List Node :=
  statements.filter fun node => !node.isStatic

def bodyStatements (body : Option Node) : List Node := (body.map Node.statements).getD []

def DeclaredKind.kind : DeclaredKind → Kind
  | .class => .class
  | .structure => .structure
  | .enumeration => .enumeration
  | .protocol => .protocol
  | .namespace => .namespace

namespace Run

variable (rules : Rules)

/-! ## Variables -/

/-- The signature of an observer: one parameter, which may be anything. -/
def observerSignature (parameter : String) : TypeTree :=
  let (type, parameters) := (TypeTree.ofKind .function).collect (some 0) none .parameters
  (type.push (some parameters)).adjust type.size fun part =>
    { asAnything part with identifier := some parameter }

/-- What the value is called that an observer is given. -/
def observed? : String → Option String
  | "willSet" => some "newValue"
  | "didSet" => some "oldValue"
  | _ => none

/-- Declares the observers in the body of a declarator. -/
def observersIn (scope : Handle) : List Node → Run (List Observer)
  | [] => return []
  | statement :: rest => do
    let declared :=
      match statement.form with
      | .observerDeclaration identifier body =>
        (identifier.bind Node.identifier?).bind fun identifier =>
          (observed? identifier).map fun parameter => (identifier, parameter, body)
      | _ => none
    match declared with
    | none => observersIn scope rest
    | some (identifier, parameter, body) =>
      let function ← createFunction rules (some identifier)
        (.block (bodyStatements body)) (some scope)
      setType rules function (observerSignature parameter)
      return ⟨identifier, function⟩ :: (← observersIn scope rest)

/-- Declares the variable of a declarator. -/
def declarator (modifiers : List String) (scope : Handle) (node : Node) : Flow Unit := do
  match node.form with
  | .declarator identifier type value body =>
    match identifier.bind Node.identifier? with
    | none => return
    | some identifier =>
      let type ← typeOf scope type
      let value ← evalChild rules value scope
      let observers ← observersIn rules scope (bodyStatements body)
      let _ ← setMember rules scope identifier { modifiers, type, value, observers } .first
  | _ => return

def variableDeclaration (modifiers : List String) (declarators : List Node) (scope : Handle) :
    Flow (Option Value) := do
  declarators.forM (declarator rules modifiers scope)
  return none

/-! ## Functions -/

/-- The overload of a member that holds a function. -/
def functionMember (function : Handle) (modifiers : List String) : Overload :=
  { modifiers, type := .ofKind .function, value := some (.reference function) }

/-- Declares a function as an overload of a member. -/
def declareFunction (scope : Handle) (identifier : String) (modifiers : List String)
    (statements : List Node) (type : TypeTree) : Run Handle := do
  let function ← createFunction rules (some identifier) (.block statements) (some scope)
  setType rules function type
  let _ ← setMember rules scope identifier (functionMember function modifiers) .append
  return function

/-- What a function declaration comes to in a scope: the statements and signature of the function,
    and the static statements that run at once; none if nothing is declared. -/
def declaredFunction (parts : FunctionParts Node) (kind : Option Kind) :
    Option (List Node × Option Node × List Node) :=
  let body := bodyStatements parts.body
  let object := kind = some .object
  let instantiable := (kind.map Kind.instantiable).getD false
  if parts.modifiers.contains "static" || (!object && !instantiable) then
    if object then none else some (objectStatements body, parts.signature, staticStatements body)
  else if object then some (objectStatements body, parts.signature, [])
  else if (staticStatements body).isEmpty then none
  else some ([], none, staticStatements body)

def functionDeclaration (parts : FunctionParts Node) (scope : Handle) : Flow (Option Value) := do
  match parts.identifier.bind Node.identifier?, declaredFunction parts ((← store).kind? scope) with
  | some identifier, some (statements, signature, statics) =>
    let function ← createFunction rules (some identifier) (.block statements) (some scope)
    let type ← functionSignature scope (signatureParts signature)
    setType rules function type
    let _ ← setMember rules scope identifier (functionMember function parts.modifiers) .append
    let _ ← executeStatements rules function statics
    return none
  | _, _ => return none

/-- A function as a value. -/
def functionExpression (parts : FunctionParts Node) (scope : Handle) : Run (Option Value) := do
  let title := parts.identifier.bind Node.identifier?
  let function ← createFunction rules title (.block (bodyStatements parts.body)) (some scope)
  let type ← functionSignature scope (signatureParts parts.signature)
  setType rules function type
  return some (.reference function)

/-- The node of the type `Self`, nillable or not. -/
def selfNode (nillable : Bool) : Node :=
  let self := Node.bare (.typeIdentifier (some (.bare (.identifier "Self"))) [])
  if nillable then .bare (.modifiedType .nillable (some self)) else self

/-- The statements of an initializer: it returns `self` unless it ends with a return. -/
def initializerStatements (statements : List Node) : List Node :=
  match statements.getLast?.map Node.form with
  | some (.returnStatement _) => statements
  | _ => statements ++ [.bare (.returnStatement (some (.bare (.identifier "self"))))]

def initializerDeclaration (modifiers : List String) (nillable : Bool)
    (signature body : Option Node) (scope : Handle) : Run (Option Value) := do
  let type ← functionSignature scope { signatureParts signature with
    returnType := some (selfNode nillable) }
  let type := type.adjust 0 fun part => { part with inits := some .present }
  let _ ← declareFunction rules scope "init" modifiers
    (initializerStatements (bodyStatements body)) type
  return none

def deinitializerDeclaration (body : Option Node) (scope : Handle) : Run (Option Value) := do
  let type ← functionSignature scope {}
  let type := type.adjust 0 fun part => { part with deinits := some .present }
  let _ ← declareFunction rules scope "deinit" [] (bodyStatements body) type
  return none

/-! ## Composites -/

/-- The type of a declared composite: its own, with generic parameters and inherited types. -/
def declaredType (scope : Handle) (type : TypeTree) (parts : CompositeParts Node) :
    Run TypeTree := do
  let type ←
    if parts.genericParameters.isEmpty then pure type
    else
      let (type, generic) := type.collect none (some 0) .genericParameters
      parts.genericParameters.foldlM
        (fun type node => addGenericParameter scope type generic node) type
  if parts.inheritedTypes.isEmpty then return type
  let (type, inherited) := type.collect none (some 0) .inheritedTypes
  parts.inheritedTypes.foldlM (fun type node => addInherited scope type inherited node) type

/-- Creates a declared composite, with its type, the level above it and what its objects run. -/
def createDeclared (kind : Kind) (identifier : Option String) (parts : CompositeParts Node)
    (scope : Handle) : Run Handle := do
  let composite ← createSelfLeveled rules identifier kind (some scope)
  let own := (((← store).get? composite).map (·.type)).getD .empty
  let type ← declaredType scope own parts
  setType rules composite type
  if kind = .class && type.inherited?.isSome then setSuperLevels rules composite type.inherited?
  if kind.instantiable then
    modifyComposite composite fun target =>
      { target with statements := .block (objectStatements (bodyStatements parts.body)) }
  return composite

/-- Declares a composite and runs its static statements in it.  Without a name to declare it under,
    it is the value of the expression. -/
def compositeDeclaration (kind : DeclaredKind) (parts : CompositeParts Node) (scope : Handle)
    (anonymous : Bool) : Flow (Option Value) := do
  let kind := kind.kind
  let identifier := parts.identifier.bind Node.identifier?
  if !anonymous && identifier.isNone then return none
  let composite ← createDeclared rules kind identifier parts scope
  let value := Value.reference composite
  match identifier, anonymous with
  | some identifier, false =>
    let overload : Overload :=
      { modifiers := parts.modifiers, type := .compositeSelf (.composite kind),
        value := some value }
    let _ ← setMember rules scope identifier overload .first
  | _, _ => pure ()
  let body := bodyStatements parts.body
  let statics := if kind.instantiable then staticStatements body else body
  let _ ← withScope rules ⟨composite, none, none⟩ false (executeStatements rules composite statics)
  return if anonymous then some value else none

/-! ## Operators and imports -/

/-- What the entries of an operator's body say, the last of each. -/
def operatorEntries : List Node → Option Int64 × Option Associativity →
    Option Int64 × Option Associativity
  | [], read => read
  | statement :: rest, (precedence, associativity) =>
    let read :=
      match statement.form with
      | .entry (some key) (some value) =>
        match key.identifier?, value.form with
        | some "precedence", .literal .integer literal =>
          match literal.integerValue with
          | some (.integer precedence) => (some precedence, associativity)
          | _ => (precedence, associativity)
        | some "associativity", .identifier "left" => (precedence, some .left)
        | some "associativity", .identifier "right" => (precedence, some .right)
        | some "associativity", .identifier "none" => (precedence, some .none)
        | _, _ => (precedence, associativity)
      | _ => (precedence, associativity)
    operatorEntries rest read

/-- Declares an operator; precedence and associativity must both be given. -/
def operatorDeclaration (modifiers : List String) (operator body : Option Node) (scope : Handle) :
    Run (Option Value) := do
  let symbol := operator.bind fun operator => operator.operator?.or operator.identifier?
  match symbol, operatorEntries (bodyStatements body) (none, none) with
  | some symbol, (some precedence, some associativity) =>
    setOperator scope symbol ⟨modifiers, associativity, precedence⟩
    return none
  | _, _ => return none

/-- The name an import is kept under: the last one of its path, or the title of the composite. -/
def importName (machine : Machine) (value : Option Node) (composite : Handle) : String :=
  match value.map Node.form with
  | some (.identifier name) => name
  | some (.chain _ member) => (member.bind Node.identifier?).getD (machine.titleOf composite)
  | _ => machine.titleOf composite

def importDeclaration (node : Node) (value : Option Node) (scope : Handle) :
    Flow (Option Value) := do
  let imported ← evalChild rules value scope
  let machine ← get
  match machine.compositeOf imported with
  | none =>
    report .error (some node) "Composite wasn't found."
    return none
  | some composite =>
    setImport rules scope (importName machine value composite) composite
    return none

end Run

end CompositeGraph
