/-
  SNAPSHOTS give back the store they were taken of.

  Each sort of data is read as it was written, from handles up to composites; a store is then its
  cells in their order.  What may stand in the way is not in the format: a number that does not fit
  its field, a float without digits or with digits that are read as another, a reference out of the
  store, or nesting beyond the limit.

    1. LINKS.       Handles, slots and retainers.
    2. TYPES.       `TypePart.Writable`: parts are written with only those fields that are set.
    3. VALUES.      `Value.Writable`, by the sort of the value.
    4. COMPOSITES.  `Composite.Writable`, with members, operators, observers and statements.
    5. STORES.      `Store.Writable`; what is saved is restored.
-/
import CompositeGraph.Snapshot
import CompositeGraph.Proofs.StoreLaws
import CompositeGraph.Proofs.SyntaxTrees

namespace CompositeGraph

open Decoder (Reads Fills bind_eq_ok reads_record)

variable {limit : Nat}

/-! ## Links -/

/-- Index and generation are numbers of 32 bits. -/
def Handle.Fits (handle : Handle) : Prop := handle.index < 2 ^ 32 ∧ handle.generation < 2 ^ 32

instance (handle : Handle) : Decidable handle.Fits := inferInstanceAs (Decidable (_ ∧ _))

theorem Handle.reads {handle : Handle} (h : handle.Fits) :
    Handle.decoder.Reads limit handle.toJson handle :=
  reads_record (by decide)
    (.written (Decoder.reads_natural h.1) (.written (Decoder.reads_natural h.2) .done))

theorem Handle.ranged {handle : Handle} (h : handle.Fits) : handle.toJson.Ranged := by
  have hbound : 2 ^ 32 < 2 ^ 64 := by decide
  have hindex := Json.ranged_ofNat (Nat.lt_trans h.1 hbound)
  have hgeneration := Json.ranged_ofNat (Nat.lt_trans h.2 hbound)
  simp [toJson, hindex, hgeneration]

theorem Handle.reads_nullable {handle : Option Handle} (h : ∀ x ∈ handle, x.Fits) :
    (Decoder.nullable Handle.decoder).Reads limit (.ofOption Handle.toJson handle) handle :=
  Decoder.reads_nullable fun x hx => ⟨Json.noConfusion, Handle.reads (h x hx)⟩

theorem Handle.reads_list {handles : List Handle} (h : ∀ x ∈ handles, x.Fits) :
    (Decoder.list Handle.decoder).Reads limit (.list (handles.map Handle.toJson)) handles :=
  Decoder.reads_list fun x hx => Handle.reads (h x hx)

namespace Links

/-- Slots are put in one after the other. -/
theorem fills_slots {links state result : Links} {declared : List (Decoder.Field Links)}
    {fields : List (String × Json)} (slots : List Slot)
    (hslots : ∀ slot, ∀ x ∈ links.get slot, x.Fits) (hrest : Fills limit declared fields
      (slots.foldl (fun state slot => state.set slot (links.get slot)) state) result) :
    Fills limit (slots.map slotField ++ declared)
      (slots.map (fun slot => (slot.name, .ofOption Handle.toJson (links.get slot))) ++ fields)
        state result := by
  induction slots generalizing state with
  | nil => exact hrest
  | cons slot slots ih => exact .written (Handle.reads_nullable (hslots slot)) (ih hrest)

/-- One field for each slot, and one for the retainers. -/
theorem reads {links : Links} (hslots : ∀ slot, ∀ x ∈ links.get slot, x.Fits)
    (hretainers : ∀ x ∈ links.retainers, x.Fits) :
      Links.decoder.Reads limit links.toJson links := by
  have hset : Slot.all.foldl (fun state slot => state.set slot (links.get slot)) ({} : Links) =
      { links with retainers := [] } := rfl
  refine reads_record (by decide +kernel) (fills_slots Slot.all hslots ?_)
  rw [hset]
  exact .written (Handle.reads_list hretainers) .done

theorem ranged {links : Links} (hslots : ∀ slot, ∀ x ∈ links.get slot, x.Fits)
    (hretainers : ∀ x ∈ links.retainers, x.Fits) : links.toJson.Ranged := by
  rw [toJson, Json.ranged_object, List.forall_mem_append, List.forall_mem_map,
    List.forall_mem_singleton, Json.ranged_list, List.forall_mem_map]
  refine ⟨fun slot _ => ?_, fun x hx => Handle.ranged (hretainers x hx)⟩
  exact Json.ranged_ofOption.mpr fun x hx => Handle.ranged (hslots slot x hx)

end Links

/-! ## Types -/

namespace TypePart

/-- The index of the parent and the handle fit, and so does the node. -/
structure Writable (part : TypePart) : Prop where
  parent : ∀ index ∈ part.parent, index < 2 ^ 64
  reference : ∀ handle ∈ part.reference, handle.Fits
  value : ∀ node ∈ part.value, node.Writable

variable {declared : List (Decoder.Field TypePart)} {fields : List (String × Json)}
  {state result : TypePart}

/-- A field that is not there is left out, and nothing is put in for it. -/
theorem fills_option {α : Type} {name : String} {decoder : Decoder α}
    {put : Option α → TypePart → TypePart} {write : α → Json} {value : Option α}
    (hread : ∀ a ∈ value, write a ≠ .null ∧ decoder.Reads limit (write a) a)
    (hnone : put none state = state)
    (hrest : Fills limit declared fields (put value state) result) :
    Fills limit (optional name decoder put :: declared) (optionField name write value ++ fields)
      state result := by
  cases value with
  | none => exact .absent Decoder.Presence.noConfusion (hnone ▸ hrest)
  | some a =>
    have h : (Decoder.nullable decoder).Reads limit (.ofOption write (some a)) (some a) :=
      Decoder.reads_nullable hread
    exact .written h hrest

/-- A flag that is false is not written, and false is what reading starts with. -/
theorem fills_flag {name : String} {put : Bool → TypePart → TypePart} {flag : Bool}
    (hfalse : put false state = state)
    (hrest : Fills limit declared fields (put flag state) result) :
    Fills limit (TypePart.flag name put :: declared) (flagField name flag ++ fields)
      state result := by
  cases flag with
  | false => exact .absent Decoder.Presence.noConfusion (hfalse ▸ hrest)
  | true => exact .written (Decoder.reads_bool true) hrest

/-- Field by field in the order written; those left out keep their defaults. -/
theorem reads {part : TypePart} (h : part.Writable) :
    TypePart.decoder.Reads nestingLimit part.toJson part := by
  have htext (text : String) : Json.text text ≠ .null ∧
    Decoder.text.Reads nestingLimit (.text text) text :=
    ⟨Json.noConfusion, Decoder.reads_text text⟩
  have hrequirement (r : Requirement) : r.toJson ≠ .null ∧
    Requirement.decoder.Reads nestingLimit r.toJson r :=
    ⟨Json.noConfusion, r.reads⟩
  have hnumber : ∀ n ∈ part.parent,
      Json.ofNat n ≠ .null ∧ (Decoder.natural 64).Reads nestingLimit (.ofNat n) n :=
    fun n hn => ⟨Json.noConfusion, Decoder.reads_natural (h.parent n hn)⟩
  have hname (p : Predefined) : Json.text p.name ≠ .null ∧
      (Decoder.name Predefined.ofName).Reads nestingLimit (.text p.name) p :=
    ⟨Json.noConfusion, Decoder.reads_name p.ofName_name⟩
  have hhandle : ∀ x ∈ part.reference,
    x.toJson ≠ .null ∧ Handle.decoder.Reads nestingLimit x.toJson x :=
    fun x hx => ⟨Json.noConfusion, Handle.reads (h.reference x hx)⟩
  have hnode : ∀ n ∈ part.value, n.toJson ≠ .null ∧ Node.decoder.Reads nestingLimit n.toJson n :=
    fun n hn => ⟨n.toJson_ne_null, Node.reads (h.value n hn)⟩
  refine reads_record (by decide +kernel) ?_
  simp only [List.append_assoc]
  refine fills_option hnumber rfl ?_
  dsimp only
  refine fills_option (fun p _ => hname p) rfl ?_
  dsimp only
  refine fills_option hhandle rfl ?_
  dsimp only
  iterate 13
    refine fills_flag rfl ?_
    dsimp only
  iterate 4
    refine fills_option (fun r _ => hrequirement r) rfl ?_
    dsimp only
  iterate 2
    refine fills_option (fun t _ => htext t) rfl ?_
    dsimp only
  rw [← List.append_nil (optionField "value" Node.toJson part.value)]
  exact fills_option hnode rfl .done

theorem ranged_flagField (name : String) (flag : Bool) :
    Json.Ranged (.object (flagField name flag)) := by
  cases flag <;> simp [flagField]

/-- A field that may be left out is in range if what it holds is. -/
theorem ranged_optionField {α : Type} (name : String) {write : α → Json} {value : Option α}
    (h : ∀ a ∈ value, (write a).Ranged) : Json.Ranged (.object (optionField name write value)) := by
  cases value with
  | none => simp [optionField]
  | some a => simpa [optionField] using h a rfl

theorem ranged {part : TypePart} (h : part.Writable) : part.toJson.Ranged := by
  have hparent := ranged_optionField "super" fun n hn => Json.ranged_ofNat (h.parent n hn)
  have hreference := ranged_optionField "reference" fun x hx => Handle.ranged (h.reference x hx)
  have hvalue := ranged_optionField "value" fun n hn => Node.ranged (h.value n hn)
  have hname :
    Json.Ranged (.object (optionField "predefined" (fun p => .text p.name) part.predefined)) :=
    ranged_optionField _ fun p _ => Json.ranged_text p.name
  have hrequirement (name : String) (value : Option Requirement) :=
    ranged_optionField name fun (r : Requirement) (_ : r ∈ value) => r.ranged
  have htext (name : String) (value : Option String) :=
    ranged_optionField name fun text (_ : text ∈ value) => Json.ranged_text text
  simp only [toJson, Json.ranged_append, ranged_flagField, hparent, hreference, hvalue, hname,
    hrequirement, htext, and_self]

end TypePart

namespace TypeTree

def Writable (type : TypeTree) : Prop := ∀ part ∈ type.parts, part.Writable

theorem reads {type : TypeTree} (h : type.Writable) :
    TypeTree.decoder.Reads nestingLimit type.toJson type :=
  (Decoder.reads_list fun part hpart => TypePart.reads (h part hpart)).map TypeTree.mk

theorem ranged {type : TypeTree} (h : type.Writable) : type.toJson.Ranged :=
  Json.ranged_list.mpr <| List.forall_mem_map.mpr fun part hpart => TypePart.ranged (h part hpart)

end TypeTree

/-! ## Values -/

namespace Value

/-- Floats have digits and handles fit, down to the entries of dictionaries. -/
inductive Writable : Value → Prop
  | boolean (value : Bool) : Writable (.boolean value)
  | integer (value : Int64) : Writable (.integer value)
  | float {value : Float} (h : value.isFinite = true) : Writable (.float value)
  | string (value : String) : Writable (.string value)
  | dictionary {entries : List (Value × Option Value)} (hkeys : ∀ entry ∈ entries, Writable entry.1)
      (hvalues : ∀ entry ∈ entries, ∀ value, entry.2 = some value → Writable value) :
      Writable (.dictionary entries)
  | type {tree : TypeTree} (h : tree.Writable) : Writable (.type tree)
  | pointer {handle : Handle} (h : handle.Fits) : Writable (.pointer handle)
  | reference {handle : Handle} (h : handle.Fits) : Writable (.reference handle)

theorem toJson_ne_null (value : Value) : value.toJson ≠ .null := by
  cases value <;> exact Json.noConfusion

/-- Nil is null, which no value is written as. -/
theorem optionJson_eq_ofOption (value : Option Value) :
    optionJson value = .ofOption toJson value := by
  cases value <;> rfl

theorem entriesJson_eq_map (entries : List (Value × Option Value)) :
    entriesJson entries = entries.map fun entry => .list [toJson entry.1, optionJson entry.2] := by
  induction entries with
  | nil => rfl
  | cons entry rest ih => rw [entriesJson, ih, List.map_cons]

/-- A value is read from its sort and its contents. -/
theorem reads_labelled {fuel : Nat} {primitive : Primitive} {json : Json} {value : Value}
    (h : Reads limit (fun pass levels draft =>
      contents (decoderTo fuel) pass levels draft primitive) json value) :
    (decoderTo (fuel + 1)).Reads (limit + 1) (labelled primitive json) value := by
  intro pass levels hd hl
  cases levels with
  | zero => exact absurd hd (by simp [labelled, Json.depth])
  | succ levels =>
    have hdepth := Json.depthFields_le_iff.mp (Nat.le_of_succ_le_succ hd)
    have hsort : Decoder.name Primitive.ofName pass levels (.ofJson (.text primitive.name)) =
      .ok primitive :=
      Decoder.reads_name primitive.ofName_name pass levels (Nat.zero_le _) (Nat.le_refl levels)
    have hcontents :=
      h pass levels (hdepth ("primitiveValue", json) (by simp)) (Nat.le_of_succ_le_succ hl)
    exact bind_eq_ok rfl <| bind_eq_ok (bind_eq_ok hsort (bind_eq_ok hcontents rfl)) <|
      bind_eq_ok rfl rfl

/-- By induction on the levels left, of which a dictionary needs one more than its entries. -/
theorem reads_decoderTo {limit : Nat} (hlimit : limit ≤ nestingLimit) {value : Value}
    (h : value.Writable) : (decoderTo (limit + 1)).Reads limit value.toJson value := by
  induction limit generalizing value with
  | zero =>
    intro pass levels hd hl
    refine absurd (Nat.le_trans hd hl) ?_
    cases value <;> simp [toJson, labelled, Json.depth]
  | succ limit ih =>
    have hlimit : limit ≤ nestingLimit := Nat.le_of_succ_le hlimit
    cases h with
    | boolean b => exact reads_labelled ((Decoder.reads_bool b).map Value.boolean)
    | integer n => exact reads_labelled ((Decoder.reads_word n).map Value.integer)
    | float hfinite => exact reads_labelled ((Decoder.reads_float hfinite).map Value.float)
    | string text => exact reads_labelled ((Decoder.reads_text text).map Value.string)
    | type htree => exact reads_labelled (((TypeTree.reads htree).mono hlimit).map Value.type)
    | pointer hfits => exact reads_labelled ((Handle.reads hfits).map Value.pointer)
    | reference hfits => exact reads_labelled ((Handle.reads hfits).map Value.reference)
    | @dictionary entries hkeys hvalues =>
      rw [toJson, entriesJson_eq_map]
      refine reads_labelled (Reads.map (Decoder.reads_list fun entry hentry => ?_) Value.dictionary)
      refine Decoder.reads_pair (ih hlimit (hkeys entry hentry)) ?_
      rw [optionJson_eq_ofOption]
      exact Decoder.reads_nullable fun v hv =>
        ⟨v.toJson_ne_null, ih hlimit (hvalues entry hentry v hv)⟩

theorem reads {value : Value} (h : value.Writable) :
    Value.decoder.Reads nestingLimit value.toJson value :=
  reads_decoderTo (Nat.le_refl _) h

theorem ranged_labelled {primitive : Primitive} {json : Json} (h : json.Ranged) :
    (labelled primitive json).Ranged := by
  simp [labelled, h]

theorem ranged {value : Value} (h : value.Writable) : value.toJson.Ranged := by
  induction h with
  | boolean b => exact ranged_labelled (Json.ranged_bool b)
  | integer n => exact ranged_labelled (Json.ranged_word n)
  | float _ => exact ranged_labelled (Json.ranged_ofFloat _)
  | string text => exact ranged_labelled (Json.ranged_text text)
  | type h => exact ranged_labelled (TypeTree.ranged h)
  | pointer h => exact ranged_labelled (Handle.ranged h)
  | reference h => exact ranged_labelled (Handle.ranged h)
  | dictionary _ _ hkeys hvalues =>
    refine ranged_labelled (Json.ranged_list.mpr ?_)
    rw [entriesJson_eq_map, List.forall_mem_map]
    intro entry hentry
    simpa [optionJson_eq_ofOption] using ⟨hkeys entry hentry, hvalues entry hentry⟩

end Value

/-! ## Composites -/

theorem Observer.reads {observer : Observer} (h : observer.function.Fits) :
    Observer.decoder.Reads limit observer.toJson observer :=
  reads_record (by decide) <| .written (Decoder.reads_text _) <| .written (Handle.reads h) .done

theorem Observer.ranged {observer : Observer} (h : observer.function.Fits) :
    observer.toJson.Ranged := by
  simp [toJson, Handle.ranged h]

theorem Decoder.reads_texts (texts : List String) :
    (Decoder.list Decoder.text).Reads limit (.ofTexts texts) texts :=
  Decoder.reads_list fun text _ => Decoder.reads_text text

namespace Overload

structure Writable (overload : Overload) : Prop where
  type : overload.type.Writable
  value : ∀ value ∈ overload.value, value.Writable
  observers : ∀ observer ∈ overload.observers, observer.function.Fits

theorem reads {overload : Overload} (h : overload.Writable) :
    Overload.decoder.Reads nestingLimit overload.toJson overload := by
  have hvalue : (Decoder.nullable Value.decoder).Reads nestingLimit
    (Value.optionJson overload.value) overload.value := by
    rw [Value.optionJson_eq_ofOption]
    exact Decoder.reads_nullable fun v hv => ⟨v.toJson_ne_null, Value.reads (h.value v hv)⟩
  have hobservers : (Decoder.list Observer.decoder).Reads nestingLimit
      (.list (overload.observers.map Observer.toJson)) overload.observers :=
    Decoder.reads_list fun observer hmem => Observer.reads (h.observers observer hmem)
  exact reads_record (by decide) <| .written (Decoder.reads_texts _) <|
    .written (TypeTree.reads h.type) <|
    .written hvalue <| .written hobservers .done

theorem ranged {overload : Overload} (h : overload.Writable) : overload.toJson.Ranged := by
  have hvalue : (Value.optionJson overload.value).Ranged := by
    rw [Value.optionJson_eq_ofOption, Json.ranged_ofOption]
    exact fun v hv => Value.ranged (h.value v hv)
  have hobservers : ∀ observer ∈ overload.observers, observer.toJson.Ranged :=
    fun observer hmem => Observer.ranged (h.observers observer hmem)
  simpa [toJson, TypeTree.ranged h.type, hvalue] using hobservers

end Overload

theorem Associativity.ofName_name (associativity : Associativity) :
    ofName associativity.name = some associativity := by
  cases associativity <;> rfl

theorem Operator.reads (operator : Operator) :
    Operator.decoder.Reads limit operator.toJson operator :=
  reads_record (by decide) <| .written (Decoder.reads_texts _) <|
    .written (Decoder.reads_name operator.associativity.ofName_name) <|
      .written (Decoder.reads_word _) .done

theorem Operator.ranged (operator : Operator) : operator.toJson.Ranged := by
  simpa [toJson] using Json.ranged_word operator.precedence

theorem Native.ofTitle_title (native : Native) : ofTitle native.title = some native := by
  cases native <;> rfl

namespace Statements

def Writable (statements : Statements) : Prop := ∀ node ∈ statements.nodes, node.Writable

/-- Statements are nothing, a block, or the title of a native function. -/
theorem reads {statements : Statements} (h : statements.Writable) :
    Statements.decoder.Reads nestingLimit statements.toJson statements := by
  intro pass levels hd hl
  cases statements with
  | none => rfl
  | block nodes =>
    cases levels with
    | zero => exact absurd hd (by simp [toJson, Json.depth])
    | succ levels =>
      have hdepth := Json.depthFields_le_iff.mp (Nat.le_of_succ_le_succ hd)
      have hnodes : Decoder.list Node.decoder pass levels
        (.ofJson (.list (nodes.map Node.toJson))) = .ok nodes :=
        Decoder.reads_list (fun node hnode => Node.reads (h node hnode)) pass levels
          (hdepth ("block", _) List.mem_cons_self) (Nat.le_of_succ_le hl)
      exact bind_eq_ok rfl <| bind_eq_ok (congrArg (Statements.block <$> ·) hnodes) rfl
  | native function =>
    cases levels with
    | zero => exact absurd hd (by simp [toJson, Json.depth])
    | succ levels =>
      have htitle : Decoder.name Native.ofTitle pass levels (.ofJson (.text function.title)) =
        .ok function :=
        Decoder.reads_name function.ofTitle_title pass levels (Nat.zero_le _) (Nat.le_refl levels)
      exact bind_eq_ok rfl <| bind_eq_ok (congrArg (Statements.native <$> ·) htitle) rfl

theorem ranged {statements : Statements} (h : statements.Writable) : statements.toJson.Ranged := by
  cases statements with
  | block nodes =>
    have hnodes : ∀ node ∈ nodes, node.toJson.Ranged := fun node hnode => Node.ranged (h node hnode)
    simpa [toJson] using hnodes
  | _ => simp [toJson]

end Statements

theorem Life.ofName_name (life : Life) : ofName life.name = some life := by
  cases life <;> rfl

namespace Composite

/-- Names and what they stand for are written as pairs, in order. -/
theorem reads_entriesJson {α : Type} {decoder : Decoder α} {write : α → Json} {named : Assoc α}
    (h : ∀ entry ∈ named.entries, decoder.Reads limit (write entry.2) entry.2) :
    (Decoder.entries decoder).Reads limit (entriesJson write named) named := Decoder.reads_entries h

/-- Handles and positions fit and floats have digits, wherever they stand in a composite. -/
structure Writable (composite : Composite) : Prop where
  slots : ∀ slot, ∀ handle ∈ composite.links.get slot, handle.Fits
  retainers : ∀ handle ∈ composite.links.retainers, handle.Fits
  type : composite.type.Writable
  statements : composite.statements.Writable
  imports : ∀ entry ∈ composite.imports.entries, entry.2.Fits
  members : ∀ entry ∈ composite.members.entries, ∀ overload ∈ entry.2, overload.Writable
  observers : ∀ observer ∈ composite.observers, observer.function.Fits

/-- A composite that has just been made is writable if its type is. -/
theorem writable_fresh (title : Option String) {type : TypeTree} (h : type.Writable) :
    (fresh title type).Writable where
  slots slot := by cases slot <;> simp [fresh, Links.get]
  retainers := by simp [fresh]
  type := h
  statements := by simp [fresh, Statements.Writable, Statements.nodes]
  imports := by simp [fresh, Assoc.empty]
  members := by simp [fresh, Assoc.empty]
  observers := by simp [fresh]

/-- A composite comes back whole: type, links, members, imports, operators and statements. -/
theorem reads {composite : Composite} (h : composite.Writable) :
    Composite.decoder.Reads nestingLimit composite.toJson composite := by
  have htitle : (Decoder.nullable Decoder.text).Reads nestingLimit (.ofOption .text composite.title)
    composite.title :=
    Decoder.reads_nullable fun text _ => ⟨Json.noConfusion, Decoder.reads_text text⟩
  have himports : (Decoder.entries Handle.decoder).Reads nestingLimit
      (entriesJson Handle.toJson composite.imports) composite.imports :=
    reads_entriesJson fun entry hentry => Handle.reads (h.imports entry hentry)
  have hoperators : (Decoder.entries (Decoder.list Operator.decoder)).Reads nestingLimit
      (entriesJson (fun operators => .list (operators.map Operator.toJson)) composite.operators)
      composite.operators :=
    reads_entriesJson fun entry _ => Decoder.reads_list fun operator _ => Operator.reads operator
  have hmembers : (Decoder.entries (Decoder.list Overload.decoder)).Reads nestingLimit
      (entriesJson (fun overloads => .list (overloads.map Overload.toJson)) composite.members)
      composite.members :=
    reads_entriesJson fun entry hentry => Decoder.reads_list fun overload hoverload =>
      Overload.reads (h.members entry hentry overload hoverload)
  have hobservers : (Decoder.list Observer.decoder).Reads nestingLimit
      (.list (composite.observers.map Observer.toJson)) composite.observers :=
    Decoder.reads_list fun observer hmem => Observer.reads (h.observers observer hmem)
  exact reads_record (by decide) <| .written htitle <| .written (Links.reads h.slots h.retainers) <|
    .written (Decoder.reads_name composite.life.ofName_name) <| .written (TypeTree.reads h.type) <|
    .written (Statements.reads h.statements) <| .written himports <| .written hoperators <|
      .written hmembers <|
    .written hobservers .done

theorem ranged_entriesJson {α : Type} {write : α → Json} {named : Assoc α}
    (h : ∀ entry ∈ named.entries, (write entry.2).Ranged) : (entriesJson write named).Ranged :=
  Json.ranged_object.mpr <| List.forall_mem_map.mpr h

theorem ranged {composite : Composite} (h : composite.Writable) : composite.toJson.Ranged := by
  have himports := ranged_entriesJson fun entry hentry => Handle.ranged (h.imports entry hentry)
  have hoperators : (entriesJson (fun operators => .list (operators.map Operator.toJson))
    composite.operators).Ranged :=
    ranged_entriesJson fun entry _ => by simpa using fun operator _ => Operator.ranged operator
  have hmembers : (entriesJson (fun overloads => .list (overloads.map Overload.toJson))
    composite.members).Ranged :=
    ranged_entriesJson fun entry hentry => by
      simpa using fun overload hoverload =>
        Overload.ranged (h.members entry hentry overload hoverload)
  have hobservers : ∀ observer ∈ composite.observers, observer.toJson.Ranged :=
    fun observer hmem => Observer.ranged (h.observers observer hmem)
  simpa [toJson, Links.ranged h.slots h.retainers, TypeTree.ranged h.type,
    Statements.ranged h.statements, himports, hoperators, hmembers] using hobservers

end Composite

/-! ## Stores -/

namespace Cell

structure Writable (cell : Cell) : Prop where
  generation : cell.generation < 2 ^ 32
  composite : ∀ composite ∈ cell.composite, composite.Writable

theorem reads {cell : Cell} (h : cell.Writable) :
    Cell.decoder.Reads nestingLimit cell.toJson cell :=
  reads_record (by decide) <| .written (Decoder.reads_natural h.generation) <|
    .written (Decoder.reads_nullable fun composite hc =>
      ⟨Json.noConfusion, Composite.reads (h.composite composite hc)⟩)
      .done

theorem ranged {cell : Cell} (h : cell.Writable) : cell.toJson.Ranged := by
  have hgeneration := Json.ranged_ofNat (Nat.lt_trans h.generation (by decide))
  have hcomposite : ∀ composite ∈ cell.composite, composite.toJson.Ranged :=
    fun composite hc => Composite.ranged (h.composite composite hc)
  simpa [toJson, hgeneration] using hcomposite

end Cell

/-- Every number in the store fits its field, and every float has digits. -/
def Store.Writable (store : Store) : Prop := ∀ cell ∈ store.cells.toList, cell.Writable

namespace Snapshot

/-- A snapshot is its version and its cells. -/
theorem reads {snapshot : Snapshot} (hversion : snapshot.version < 2 ^ 32)
    (hcells : ∀ cell ∈ snapshot.cells, cell.Writable) :
    Snapshot.decoder.Reads nestingLimit snapshot.toJson snapshot :=
  reads_record (by decide) <| .written (Decoder.reads_natural hversion) <|
    .written (Decoder.reads_list fun cell hcell => Cell.reads (hcells cell hcell)) .done

theorem ranged {snapshot : Snapshot} (hversion : snapshot.version < 2 ^ 32)
    (hcells : ∀ cell ∈ snapshot.cells, cell.Writable) : snapshot.toJson.Ranged := by
  have hnumber := Json.ranged_ofNat (Nat.lt_trans hversion (by decide))
  have hcells : ∀ cell ∈ snapshot.cells, cell.toJson.Ranged :=
    fun cell hcell => Cell.ranged (hcells cell hcell)
  simpa [toJson, hnumber] using hcells

/-- Without a reference out of the store nothing dangles. -/
theorem firstDangling_eq_none {store : Store}
    (h : ∀ handle composite, store.get? handle = some composite →
      ∀ reference ∈ composite.references, reference.index < store.size) :
        firstDangling store = none := by
  refine List.findSome?_eq_none_iff.mpr fun entry hentry => ?_
  rw [Option.map_eq_none_iff, List.find?_eq_none]
  intro reference hmem hdangling
  have hindex := h entry.1 entry.2 (Store.mem_live.mp hentry) reference hmem
  have hsize := of_decide_eq_true hdangling
  omega

/-- Without dangling handles, restoring checks nothing that fails. -/
theorem toStore_ofStore {store : Store} (h : firstDangling store = none) :
    (ofStore store).toStore = .ok store := by
  have hcells : (⟨(ofStore store).cells.toArray⟩ : Store) = store :=
    congrArg Store.mk store.cells.toArray_toList
  unfold toStore
  dsimp only
  rw [if_neg (fun hversion => hversion rfl), hcells, h]
  rfl

/-- The text of a store is read as what was written. -/
theorem run_save {store : Store} (hwritable : store.Writable)
    (hdepth : (ofStore store).toJson.depth ≤ nestingLimit)
    (hfloats : ∀ value ∈ (ofStore store).toJson.floats, Json.Exact value) :
    decoder.run (save store) = .ok (ofStore store) := by
  have hversion : (ofStore store).version < 2 ^ 32 := show snapshotVersion < 2 ^ 32 by decide
  have hread : Document.read (save store) = ⟨.ofJson (ofStore store).toJson, none⟩ :=
    Document.read_render (Json.legible_of_mem_leaves (ranged hversion hwritable) hfloats)
  have hdecode : decoder .direct nestingLimit (.ofJson (ofStore store).toJson) =
    .ok (ofStore store) :=
    reads hversion hwritable .direct nestingLimit hdepth (Nat.le_refl _)
  unfold Decoder.run
  rw [hread]
  exact bind_eq_ok hdecode (bind_eq_ok rfl rfl)

/-- A saved store is restored as it was: its gaps and generations, and every composite with its
    title, slots, retainers, life, type, statements, imports, operators, members and observers, all
    in their order.  Of the text it is assumed only that each float is read back from its digits. -/
theorem restore_save {store : Store} (hwritable : store.Writable)
    (hreferences : ∀ handle composite, store.get? handle = some composite →
      ∀ reference ∈ composite.references, reference.index < store.size)
    (hdepth : (ofStore store).toJson.depth ≤ nestingLimit)
    (hfloats : ∀ value ∈ (ofStore store).toJson.floats, Json.Exact value) :
    restore (save store) = .ok store := by
  rw [restore, run_save hwritable hdepth hfloats]
  exact toStore_ofStore (firstDangling_eq_none hreferences)

def tenth : Node := .mk ⟨7, 10⟩ (.literal .float (.float 0.1))

/-- A function that takes a float, a tenth where none is given. -/
def scaling : TypeTree :=
  ⟨[{ predefined := some (.composite .function), reference := some ⟨2, 3⟩ },
    { parent := some 0, parameters := true, awaits := some .optional },
    { parent := some 1, predefined := some .float, default := true, identifier := some "factor",
      value := some tenth }]⟩

def scales : Overload :=
  { modifiers := ["final"], type := scaling, observers := [⟨"willSet", ⟨2, 3⟩⟩],
    value := some (.dictionary [(.string "tenth", some (.float 0.1)), (.integer 1, none)]) }

/-- A namespace, a gap, and a function in the namespace. -/
def workshop : Store :=
  ⟨#[{ generation := 0, composite := some { Composite.fresh (some "Workshop") .empty with
        links := { retainers := [⟨2, 3⟩, ⟨0, 0⟩] }
        imports := Assoc.empty.put "tools" ⟨2, 3⟩
        operators := Assoc.empty.put "+" [⟨["infix"], .left, 100⟩]
        members := Assoc.empty.put "scales" [scales]
        observers := [⟨"didGet", ⟨2, 3⟩⟩] } },
    { generation := 5, composite := none },
    { generation := 3, composite := some { Composite.fresh none scaling with
        links := { scope := some ⟨0, 0⟩, retainers := [⟨0, 0⟩] }
        statements := .block [.mk ⟨0, 10⟩ (.returnStatement (some tenth))] } }]⟩

theorem exact_tenth : Json.Exact 0.1 := by
  have htext : Json.render (.float 0.1) = "0.1" := by decide +kernel
  have hfloat : Reading.floatOf 1 (-1) = some 0.1 := by decide +kernel
  rw [Json.Exact, htext]
  show Reading.value 1 ['0', '.', '1'] = _
  rw [Reading.value_digit (by decide)]
  show (⟨Reading.numberDraft false (Reading.floatOf 1 (-1)), some []⟩ : Reading) = _
  rw [hfloat]
  rfl

theorem isFinite_tenth : (0.1 : Float).isFinite = true := by decide +kernel

theorem writable_tenth : tenth.Writable := by
  refine .mk ⟨by decide, by decide⟩ ?_ (by simp [Form.children])
  rintro sort value ⟨⟩
  exact isFinite_tenth

theorem writable_scaling : scaling.Writable := by
  simp only [TypeTree.Writable, scaling, List.forall_mem_cons, List.not_mem_nil, false_implies,
    implies_true, and_true]
  refine ⟨⟨by simp, by simp [Handle.Fits], by simp⟩,
    ⟨by simp, by simp, by simp⟩, by simp, by simp, ?_⟩
  simpa using writable_tenth

theorem writable_scales : scales.Writable := by
  refine ⟨writable_scaling, ?_, by simp [scales, Handle.Fits]⟩
  rintro value ⟨⟩
  refine .dictionary ?_ ?_
  · simpa using ⟨.string "tenth", .integer 1⟩
  · simpa using .float isFinite_tenth

theorem writable_workshop : workshop.Writable := by
  have hfits : (⟨2, 3⟩ : Handle).Fits ∧ (⟨0, 0⟩ : Handle).Fits := by decide
  have hstatement : (Node.mk ⟨0, 10⟩ (.returnStatement (some tenth))).Writable := by
    refine .mk ⟨by decide, by decide⟩ (by simp) ?_
    simpa [Form.children] using writable_tenth
  simp only [Store.Writable, workshop, List.forall_mem_cons, List.not_mem_nil, false_implies,
    implies_true, and_true]
  refine ⟨⟨by decide, ?_⟩, ⟨by decide, by simp⟩, by decide, ?_⟩
  · rintro composite ⟨⟩
    refine ⟨fun slot => ?_, ?_, ?_, ?_, ?_, ?_, ?_⟩
    · cases slot <;> simp [Links.get]
    · simp [hfits]
    · simp [TypeTree.Writable, Composite.fresh, TypeTree.empty]
    · simp [Statements.Writable, Composite.fresh, Statements.nodes]
    · simp [Assoc.put, Assoc.empty, Assoc.place, hfits]
    · simpa [Assoc.put, Assoc.empty, Assoc.place] using writable_scales
    · simp [hfits]
  · rintro composite ⟨⟩
    refine ⟨fun slot => ?_, ?_, writable_scaling, ?_, ?_, ?_, ?_⟩
    · cases slot <;> simp [Links.get, hfits]
    · simp [hfits]
    · simpa [Statements.Writable, Statements.nodes] using hstatement
    · simp [Composite.fresh, Assoc.empty]
    · simp [Composite.fresh, Assoc.empty]
    · simp [Composite.fresh]

theorem restore_save_workshop : workshop.Writable ∧ restore (save workshop) = .ok workshop := by
  have hreferences : ∀ entry ∈ workshop.live, ∀ reference ∈ entry.2.references,
    reference.index < workshop.size := by
    decide
  have hfloats : (ofStore workshop).toJson.floats = [0.1, 0.1, 0.1, 0.1] := by decide +kernel
  refine ⟨writable_workshop, restore_save writable_workshop ?_ (by decide +kernel) ?_⟩
  · exact fun handle composite hget => hreferences (handle, composite) (Store.mem_live.mpr hget)
  · rw [hfloats]
    simpa using exact_tenth

end Snapshot

end CompositeGraph
