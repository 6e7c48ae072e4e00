/-
  TYPES AND SIGNATURES as a program writes them.

  Type nodes become parts.  A node that modifies a type (nillable, variadic, ...) marks the part of
  the type it wraps and adds none.  What says nothing becomes the type of anything.
-/
import CompositeGraph.Retention

namespace CompositeGraph.Run

/-- A composite named by a type: not an object, and visible from the scope. -/
def typeComposite (scope : Handle) (name : String) : Run (Option Handle) := do
  let machine ← get
  return ((machine.lookup.find? scope name .composite false).bind (·.matching)).filter fun handle =>
    !machine.store.isKind .object handle

/-- Marks a part as anything, nil included. -/
def asAnything (part : TypePart) : TypePart :=
  { part with predefined := some .wildcard, nillable := true }

/-- Sets a mark of a part; of nillable and default only the outermost counts. -/
def marked (modifier : TypeModifier) (part : TypePart) : TypePart :=
  match modifier with
  | .nillable => if part.nillable || part.default then part else { part with nillable := true }
  | .default => if part.nillable || part.default then part else { part with default := true }
  | .inout => { part with inout := true }
  | .variadic => { part with variadic := true }
  | .parenthesized => part

/-- The part that collects the elements of an array or dictionary type: under the composite of that
    name, if there is one in scope. -/
def collectElements (scope : Handle) (type : TypeTree) (index : Nat) (name : String)
    (collection : Collection) : Run (TypeTree × Nat) := do
  match ← typeComposite scope name with
  | some composite =>
    let type := type.adjust index fun part => { part with reference := some composite }
    return type.collect none (some index) .genericArguments
  | none => return type.collect none (some index) collection

mutual

/-- Writes what a node says into the part at an index, and parts below it. -/
def fillPart (scope : Handle) : Node → TypeTree → Nat → Run TypeTree
  | .mk range form, type, index =>
    match form with
    | .predefinedType name =>
      return type.adjust index fun part => { part with predefined := Predefined.ofName name }
    | .protocolType =>
      return type.adjust index fun part => { part with predefined := some (.composite .protocol) }
    | .typeIdentifier identifier genericArguments => do
      let composite ←
        match identifier.bind Node.identifier? with
        | some name => typeComposite scope name
        | none => pure none
      let type ←
        match composite with
        | some composite =>
          pure (type.adjust index fun part => { part with reference := some composite })
        | none =>
          report .error (some (.mk range form)) "Composite is an object or wasn't found."
          pure (type.adjust index fun part => { part with predefined := some .any })
      if genericArguments.isEmpty then return type
      let (type, arguments) := type.collect none (some index) .genericArguments
      addParts scope genericArguments type arguments
    | .arrayType value => do
      let (type, elements) ← collectElements scope type index "Array" .array
      addPart scope value type (some elements)
    | .dictionaryType key value => do
      let (type, elements) ← collectElements scope type index "Dictionary" .dictionary
      let type ← addPart scope key type (some elements)
      addPart scope value type (some elements)
    | .unionType subtypes => do
      let (type, members) := type.collect none (some index) .union
      addParts scope subtypes type members
    | .intersectionType subtypes => do
      let (type, members) := type.collect none (some index) .intersection
      addParts scope subtypes type members
    | .functionType genericParameterTypes parameterTypes awaits throws returnType => do
      let (type, function) :=
        if (type.part index).isCollection then (type.push (some index), type.size)
        else (type, index)
      let type := type.adjust function fun part =>
        { part with
          predefined := some (.composite .function)
          awaits := some awaits
          throws := some throws }
      let (type, generic) := type.collect (some function) none .genericParameters
      let type ← addParts scope genericParameterTypes type generic
      let (type, parameters) := type.collect (some function) none .parameters
      let type ← addParts scope parameterTypes type parameters
      addPart scope returnType type (some function)
    | .modifiedType modifier value =>
        fillFrom scope value (type.adjust index (marked modifier)) index
    | _ => return type

/-- Writes what a node says, if there is one. -/
def fillFrom (scope : Handle) : Option Node → TypeTree → Nat → Run TypeTree
  | none, type, _ => return type
  | some node, type, index => fillPart scope node type index

/-- Adds a part under a parent; one that stays blank is the type of anything. -/
def addPart (scope : Handle) : Option Node → TypeTree → Option Nat → Run TypeTree
  | none, type, parent => return (type.push parent).adjust type.size asAnything
  | some node, type, parent => do
    let index := type.size
    let type ← fillPart scope node (type.push parent) index
    return if (type.part index).isBlank then type.adjust index asAnything else type

/-- Adds parts under a parent, in order. -/
def addParts (scope : Handle) : List Node → TypeTree → Nat → Run TypeTree
  | [], type, _ => return type
  | node :: rest, type, parent => do
    let index := type.size
    let type ← fillPart scope node (type.push (some parent)) index
    let type := if (type.part index).isBlank then type.adjust index asAnything else type
    addParts scope rest type parent

end

/-- The type a node describes. -/
def typeOf (scope : Handle) (node : Option Node) : Run TypeTree := addPart scope node .empty none

/-- Adds a part for an inherited type; it may stay blank. -/
def addInherited (scope : Handle) (type : TypeTree) (parent : Nat) (node : Node) : Run TypeTree :=
  fillPart scope node (type.push (some parent)) type.size

/-- Adds the part of a declared parameter: its type, or anything. -/
def addDeclared (scope : Handle) (type : TypeTree) (parent : Nat)
    (declared : Option Node) : Run TypeTree :=
  match declared with
  | some node => fillPart scope node (type.push (some parent)) type.size
  | none => return (type.push (some parent)).adjust type.size asAnything

/-- Adds a generic parameter; other nodes are passed over. -/
def addGenericParameter (scope : Handle) (type : TypeTree) (parent : Nat) (node : Node) :
    Run TypeTree := do
  match node.form with
  | .genericParameter identifier constraint =>
    let index := type.size
    let type ← addDeclared scope type parent constraint
    return type.adjust index fun part =>
      { part with identifier := identifier.bind Node.identifier? }
  | _ => return type

/-- Adds a parameter with its label, identifier and default; other nodes are passed over.  The label
    `_` is none. -/
def addParameter (scope : Handle) (type : TypeTree) (parent : Nat) (node : Node) :
    Run TypeTree := do
  match node.form with
  | .parameter label identifier declared value =>
    let index := type.size
    let type ← addDeclared scope type parent declared
    return type.adjust index fun part =>
      { part with
        label := (label.bind Node.identifier?).filter (· != "_")
        identifier := identifier.bind Node.identifier?
        value := value }
  | _ => return type

/-- The parts of a signature node; any other node declares nothing. -/
def signatureParts (node : Option Node) : SignatureParts Node :=
  match node.map Node.form with
  | some (.signature parts) => parts
  | _ => {}

/-- The type of a function: requirements on the root, then generic parameters, parameters and the
    return type, in that order of parts. -/
def functionSignature (scope : Handle) (parts : SignatureParts Node) : Run TypeTree := do
  let root := TypeTree.ofPart
    { predefined := some (.composite .function), inits := some parts.inits,
      deinits := some parts.deinits, awaits := some parts.awaits, throws := some parts.throws }
  let (type, generic) := root.collect (some 0) none .genericParameters
  let type ← parts.genericParameters.foldlM
    (fun type node => addGenericParameter scope type generic node) type
  let (type, parameters) := type.collect (some 0) none .parameters
  let type ← parts.parameters.foldlM (fun type node => addParameter scope type parameters node) type
  addPart scope parts.returnType type (some 0)

end CompositeGraph.Run
