/-
  COMPOSITES IN JSON.
-/
import CompositeGraph.Composite.Basic
import CompositeGraph.Value.Codec

namespace CompositeGraph

/-! ## Names -/

namespace Life

def name : Life → String
  | .creating => "creating"
  | .idle => "idle"
  | .destroyed => "destroyed"

def ofName : String → Option Life
  | "creating" => some .creating
  | "idle" => some .idle
  | "destroyed" => some .destroyed
  | _ => none

end Life

namespace Associativity

def name : Associativity → String
  | .left => "left"
  | .right => "right"
  | .none => "none"

def ofName : String → Option Associativity
  | "left" => some .left
  | "right" => some .right
  | "none" => some .none
  | _ => Option.none

end Associativity

/-! ## Links -/

namespace Links

def toJson (links : Links) : Json :=
  .object (Slot.all.map (fun slot => (slot.name, .ofOption Handle.toJson (links.get slot))) ++
    [("retainers", .list (links.retainers.map Handle.toJson))])

/-- A slot, empty when left out. -/
def slotField (slot : Slot) : Decoder.Field Links :=
  Decoder.field slot.name .defaulted (Decoder.nullable Handle.decoder) fun value links =>
    links.set slot value

def decoder : Decoder Links :=
  Decoder.record {} (Slot.all.map slotField ++
    [Decoder.field "retainers" .defaulted (Decoder.list Handle.decoder) fun value links =>
      { links with retainers := value }])

end Links

/-! ## Members -/

namespace Observer

def toJson (observer : Observer) : Json :=
  .object [("identifier", .text observer.identifier), ("value", observer.function.toJson)]

def decoder : Decoder Observer :=
  Decoder.record ⟨"", default⟩
    [Decoder.field "identifier" .needed Decoder.text fun value observer =>
      { observer with identifier := value },
      Decoder.field "value" .needed Handle.decoder fun value observer =>
        { observer with function := value }]

end Observer

namespace Overload

def toJson (overload : Overload) : Json :=
  .object [("modifiers", .ofTexts overload.modifiers), ("type", overload.type.toJson),
    ("value", Value.optionJson overload.value),
    ("observers", .list (overload.observers.map Observer.toJson))]

def decoder : Decoder Overload :=
  Decoder.record { type := .empty }
    [Decoder.field "modifiers" .needed (Decoder.list Decoder.text) fun value overload =>
        { overload with modifiers := value },
      Decoder.field "type" .needed TypeTree.decoder fun value overload =>
        { overload with type := value },
      Decoder.field "value" .nullable (Decoder.nullable Value.decoder) fun value overload =>
        { overload with value := value },
      Decoder.field "observers" .needed (Decoder.list Observer.decoder) fun value overload =>
        { overload with observers := value }]

end Overload

namespace Operator

def toJson (operator : Operator) : Json :=
  .object [("modifiers", .ofTexts operator.modifiers),
    ("associativity", .text operator.associativity.name),
    ("precedence", .int operator.precedence.toInt)]

def decoder : Decoder Operator :=
  Decoder.record ⟨[], .left, 0⟩
    [Decoder.field "modifiers" .needed (Decoder.list Decoder.text) fun value operator =>
        { operator with modifiers := value },
      Decoder.field "associativity" .needed (Decoder.name Associativity.ofName)
      fun value operator => { operator with associativity := value },
      Decoder.field "precedence" .needed Decoder.word fun value operator =>
        { operator with precedence := value }]

end Operator

namespace Statements

def toJson : Statements → Json
  | .none => .text "none"
  | .block nodes => .object [("block", .list (nodes.map Node.toJson))]
  | .native function => .object [("native", .text function.title)]

/-- `none` alone, or an object with the one field `block` or `native`. -/
def decoder : Decoder Statements
  | _, _, .text name => if name == "none" then .ok .none else .error .mismatched
  | pass, levels, .object fields fault =>
    Decoder.soleField pass levels fields fault fun name levels draft =>
      match name with
      | "none" =>
        match draft with
        | .null => .ok .none
        | draft => Decoder.unexpected draft
      | "block" => .block <$> Decoder.list Node.decoder pass levels draft
      | "native" => .native <$> Decoder.name Native.ofTitle pass levels draft
      | _ => .error .mismatched
  | _, _, .broken fault => .error fault
  | pass, _, _ => .error (Decoder.surplus pass)

end Statements

/-! ## Composites -/

namespace Composite

/-- Named entries as an object. -/
def entriesJson {α : Type} (write : α → Json) (entries : Assoc α) : Json :=
  .object (entries.entries.map fun (name, value) => (name, write value))

def toJson (composite : Composite) : Json :=
  .object [("title", .ofOption .text composite.title), ("IDs", composite.links.toJson),
    ("life", .text composite.life.name), ("type", composite.type.toJson),
    ("statements", composite.statements.toJson),
    ("imports", entriesJson Handle.toJson composite.imports),
    ("operators",
      entriesJson (fun operators => .list (operators.map Operator.toJson)) composite.operators),
    ("members",
      entriesJson (fun overloads => .list (overloads.map Overload.toJson)) composite.members),
    ("observers", .list (composite.observers.map Observer.toJson))]

def decoder : Decoder Composite :=
  Decoder.record (fresh none .empty)
    [Decoder.field "title" .nullable (Decoder.nullable Decoder.text) fun value composite =>
        { composite with title := value },
      Decoder.field "IDs" .needed Links.decoder fun value composite =>
        { composite with links := value },
      Decoder.field "life" .needed (Decoder.name Life.ofName) fun value composite =>
        { composite with life := value },
      Decoder.field "type" .needed TypeTree.decoder fun value composite =>
        { composite with type := value },
      Decoder.field "statements" .needed Statements.decoder fun value composite =>
        { composite with statements := value },
      Decoder.field "imports" .needed (Decoder.entries Handle.decoder) fun value composite =>
        { composite with imports := value },
      Decoder.field "operators" .needed (Decoder.entries (Decoder.list Operator.decoder))
        fun value composite => { composite with operators := value },
      Decoder.field "members" .needed (Decoder.entries (Decoder.list Overload.decoder))
        fun value composite => { composite with members := value },
      Decoder.field "observers" .needed (Decoder.list Observer.decoder) fun value composite =>
        { composite with observers := value }]

end Composite

end CompositeGraph
