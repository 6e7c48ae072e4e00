/-
  SYNTAX TREES are read as they were written.

  A node is written with its range, its label and the fields of its form.  Reading holds the fields
  back until the label is known, and looks each of them up by name; so no two fields of a form may
  have one name, and none may be called `range` or `type`.

    1. LEAVES.  Ranges, literals, requirements, labels.
    2. FORMS.   `Form.children`; the names of the fields of a form.
    3. NODES.   `Node.Writable`: numbers that fit and floats that have digits, down
to the leaves. -/
import CompositeGraph.Node.Decoder
import CompositeGraph.Node.Writer
import CompositeGraph.Proofs.Decoding
import CompositeGraph.Proofs.Texts
import Mathlib.Data.List.Nodup

namespace CompositeGraph

open Decoder (Reads Fills bind_eq_ok reads_record)

variable {limit : Nat}

/-! ## Leaves -/

/-- Positions are numbers of 64 bits. -/
def Range.Fits (range : Range) : Prop := range.start < 2 ^ 64 ∧ range.stop < 2 ^ 64

theorem Range.reads {range : Range} (h : range.Fits) :
    Range.decoder.Reads limit range.toJson range :=
  reads_record (by decide)
    (.written (Decoder.reads_natural h.1) (.written (Decoder.reads_natural h.2) .done))

theorem Range.ranged {range : Range} (h : range.Fits) : range.toJson.Ranged := by
  simp [Range.toJson, Json.ranged_ofNat h.1, Json.ranged_ofNat h.2]

/-- A float in a literal has digits. -/
def Literal.IsFinite : Literal → Prop
  | .float value => value.isFinite = true
  | _ => True

/-- Infinite floats and NaNs are written as null; all other literals come back. -/
theorem Literal.reads {literal : Literal} (h : literal.IsFinite) :
    Literal.decoder.Reads limit literal.toJson literal := by
  intro pass levels _ _
  cases literal with
  | text value => rfl
  | boolean value => rfl
  | integer value =>
    have hfits : Word.fits value.toInt = true := by
      rw [Word.fits, Bool.and_eq_true]
      exact ⟨decide_eq_true (Int64.le_toInt value), decide_eq_true (Int64.toInt_le value)⟩
    show (if Word.fits value.toInt then _ else _) = _
    rw [if_pos hfits, Int64.ofInt_toInt]
  | float value =>
    have hjson : Json.ofFloat value = .float value := if_pos h
    rw [Literal.toJson, hjson]
    rfl

/-- Literals are words of 64 bits or floats, and so in range. -/
@[simp] theorem Literal.ranged (literal : Literal) : literal.toJson.Ranged := by
  cases literal with
  | integer value => exact Json.ranged_word value
  | _ => simp [toJson, exact]

theorem Requirement.reads (requirement : Requirement) :
    Requirement.decoder.Reads limit requirement.toJson requirement := by
  intro pass levels _ _
  cases requirement <;> rfl

@[simp] theorem Requirement.ranged (requirement : Requirement) : requirement.toJson.Ranged := by
  cases requirement <;> exact Json.ranged_int.mpr ⟨by decide, by decide⟩

@[simp] theorem Json.ranged_ofTexts (texts : List String) :
    (Json.ofTexts texts).Ranged := by simp [ofTexts]

namespace Label

theorem mem_all (label : Label) : label ∈ all := by cases label <;> decide

/-- Labels and the parts of a body are all named differently. -/
theorem nodup_names : (Form.bodyNames ++ all.map name).Nodup := by decide +kernel

theorem name_injective {a b : Label} (h : a.name = b.name) : a = b :=
  List.inj_on_of_nodup_map (List.nodup_append.mp nodup_names).2.1 (mem_all a) (mem_all b) h

theorem ofName_name (label : Label) : ofName label.name = some label := by
  cases hfind : ofName label.name with
  | none => exact absurd (List.find?_eq_none.mp hfind label (mem_all label)) (by simp)
  | some other =>
    have hname : other.name = label.name := by simpa using List.find?_some hfind
    rw [name_injective hname]

end Label

/-- A label is read from its name. -/
theorem Form.labelOf_name (label : Label) : Form.labelOf (.text label.name) = .ok label := by
  have hbody : bodyNames.contains label.name = false := by
    refine Bool.eq_false_iff.mpr fun hmem => ?_
    exact (List.nodup_append.mp Label.nodup_names).2.2 _ (List.contains_iff_mem.mp hmem) _
      (List.mem_map_of_mem (Label.mem_all label)) rfl
  rw [labelOf, hbody, Label.ofName_name]
  rfl

/-! ## Forms -/

namespace Form

variable {ν : Type}

/-- The nodes that a form is made of. -/
def children : Form ν → List ν
  | .module nodes | .body nodes | .stringLiteral nodes | .arrayLiteral nodes
  | .dictionaryLiteral nodes
  | .sequence nodes | .variableDeclaration _ nodes | .unionType nodes
  | .intersectionType nodes => nodes
  | .stringExpression node | .parenthesized node | .inoutExpression node | .nillableExpression node
  | .tryExpression _ node | .deleteExpression node | .typeExpression node
  | .deinitializerDeclaration node
  | .importDeclaration node | .returnStatement node | .throwStatement node | .breakStatement node
  | .continueStatement node | .arrayType node | .modifiedType _ node => node.toList
  | .entry a b | .prefixed a b | .postfixed a b | .argument a b | .chain a b | .dictionaryType a b
  | .observerDeclaration a b | .initializerDeclaration _ _ a b | .genericParameter a b
  | .operatorDeclaration _ a b | .whileStatement a b => a.toList ++ b.toList
  | .ifStatement a b c => a.toList ++ b.toList ++ c.toList
  | .declarator a b c d | .parameter a b c d => a.toList ++ b.toList ++ c.toList ++ d.toList
  | .call callee genericArguments arguments closure
  | .subscript callee genericArguments arguments closure =>
    callee.toList ++ genericArguments ++ arguments ++ closure.toList
  | .functionExpression parts | .functionDeclaration parts =>
    parts.identifier.toList ++ parts.signature.toList ++ parts.body.toList
  | .compositeExpression _ parts | .compositeDeclaration _ parts =>
    parts.identifier.toList ++ parts.genericParameters ++ parts.inheritedTypes ++ parts.body.toList
  | .signature parts => parts.genericParameters ++ parts.parameters ++ parts.returnType.toList
  | .typeIdentifier node nodes => node.toList ++ nodes
  | .functionType genericParameterTypes parameterTypes _ _ returnType =>
    genericParameterTypes ++ parameterTypes ++ returnType.toList
  | .identifier _ | .literal _ _ | .nilLiteral | .stringSegment _ | .operator _ _
  | .predefinedType _
  | .protocolType | .unsupported => []

end Form

namespace Node

/-- A node is written as an object, so that null can stand for a missing one. -/
theorem toJson_ne_null (node : Node) : node.toJson ≠ .null := by
  cases node
  exact Json.noConfusion

theorem child_eq_ofOption (node : Option Node) :
    child Literal.toJson node = Json.ofOption toJson node := by
  cases node <;> rfl

theorem nodes_eq_map (list : List Node) : nodes Literal.toJson list = list.map toJson := by
  induction list with
  | nil => rfl
  | cons node rest ih => rw [nodes, ih, List.map_cons, toJson]

/-- No form writes a field twice, or one named like the two written for every form. -/
theorem nodup_names_fields (form : Form Node) :
    ("range" :: "type" :: (fields Literal.toJson form).map Prod.fst).Nodup := by
  cases form with
  | functionExpression parts | functionDeclaration parts =>
      cases parts; simp [fields, functionFields]
  | compositeExpression _ parts | compositeDeclaration _ parts =>
      cases parts; simp [fields, compositeFields]
  | _ => simp [fields]

/-! ## Nodes -/

namespace Held

variable {α : Type} {held : Held} {form : Form Node}

/-- The fields of a form are held back, not too deep, and its children can be read. -/
structure Holds (held : Held) (form : Form Node) : Prop where
  find : ∀ field ∈ Node.fields Literal.toJson form, held.find field.1 = .ok (some (.ofJson field.2))
  depth : ∀ field ∈ Node.fields Literal.toJson form, field.2.depth ≤ held.levels
  reads : ∀ node ∈ form.children, held.node.Reads held.levels node.toJson node

/-- What was written under a name is found under it, names being unique. -/
theorem find_eq {fields : List (String × Json)} (hfields : held.fields = Draft.ofFields fields)
    (hnames : (fields.map Prod.fst).Nodup) {field : String × Json} (hmem : field ∈ fields) :
    held.find field.1 = .ok (some (.ofJson field.2)) := by
  have hfilter : (Draft.ofFields fields).filter (·.1 == field.1) =
    [(field.1, .ofJson field.2)] := by
    clear hfields
    induction fields with
    | nil => exact absurd hmem List.not_mem_nil
    | cons first rest ih =>
      obtain ⟨hnew, hrest⟩ := List.nodup_cons.mp hnames
      rw [Draft.ofFields]
      rcases List.mem_cons.mp hmem with rfl | hmem
      · have hnone : (Draft.ofFields rest).filter (·.1 == field.1) = [] := by
          rw [Draft.ofFields_eq_map, List.filter_eq_nil_iff]
          intro x hx hname
          obtain ⟨y, hy, rfl⟩ := List.mem_map.mp hx
          exact hnew (beq_iff_eq.mp hname ▸ List.mem_map_of_mem hy)
        rw [List.filter_cons_of_pos (by simp), hnone]
      · have hne : first.1 ≠ field.1 := fun h => hnew (h ▸ List.mem_map_of_mem hmem)
        rw [List.filter_cons_of_neg (by simpa using hne), ih hrest hmem]
  rw [find, hfields, hfilter]

namespace Holds

theorem orElse_eq (h : held.Holds form) {name : String} {json : Json} {decoder : Decoder α}
    {default value : α} (hmem : (name, json) ∈ Node.fields Literal.toJson form)
    (hread : decoder.Reads held.levels json value) :
    held.orElse name default decoder = .ok value := by
  rw [orElse, h.find _ hmem]
  exact hread .held held.levels (h.depth _ hmem) (Nat.le_refl _)

/-- A field that must be there is read as written; the others have a default besides. -/
theorem need_eq (h : held.Holds form) {name : String} {json : Json}
    {decoder : Decoder α} {value : α} (hmem : (name, json) ∈ Node.fields Literal.toJson form)
    (hread : decoder.Reads held.levels json value) : held.need name decoder = .ok value := by
  rw [need, h.find _ hmem]
  exact hread .held held.levels (h.depth _ hmem) (Nat.le_refl _)

-- Where a field stands and which children it holds is plain once the form is known, so it need not
-- be said.

/-- Children are read by the decoder one level down, for which `Holds` vouches. -/
theorem child_eq (h : held.Holds form) {name : String} {node : Option Node}
    (hmem : (name, Node.child Literal.toJson node) ∈
      Node.fields Literal.toJson form := by simp [Node.fields])
    (hsub : ∀ n ∈ node, n ∈ form.children := by simp +contextual [Form.children]) :
    held.child name = .ok node := by
  refine h.orElse_eq hmem ?_
  rw [child_eq_ofOption]
  exact Decoder.reads_nullable fun n hn => ⟨n.toJson_ne_null, h.reads n (hsub n hn)⟩

theorem nodes_eq (h : held.Holds form) {name : String} {nodes : List Node}
    (hmem : (name, .list (Node.nodes Literal.toJson nodes)) ∈
      Node.fields Literal.toJson form := by simp [Node.fields])
    (hsub : ∀ n ∈ nodes, n ∈ form.children := by simp +contextual [Form.children]) :
    held.nodes name = .ok nodes := by
  refine h.orElse_eq hmem ?_
  rw [nodes_eq_map]
  exact Decoder.reads_list fun n hn => h.reads n (hsub n hn)

theorem text_eq (h : held.Holds form) {name value : String}
    (hmem : (name, .text value) ∈ Node.fields Literal.toJson form := by simp [Node.fields]) :
      held.text name = .ok value :=
  h.need_eq hmem (Decoder.reads_text value)

theorem flag_eq (h : held.Holds form) {name : String} {value : Bool}
    (hmem : (name, .bool value) ∈ Node.fields Literal.toJson form := by simp [Node.fields]) :
      held.flag name = .ok value :=
  h.orElse_eq hmem (Decoder.reads_bool value)

theorem texts_eq (h : held.Holds form) {name : String} {values : List String}
    (hmem : (name, .ofTexts values) ∈ Node.fields Literal.toJson form := by simp [Node.fields]) :
    held.texts name = .ok values :=
  h.orElse_eq hmem (Decoder.reads_list fun value _ => Decoder.reads_text value)

theorem requirement_eq (h : held.Holds form) {name : String} {value : Requirement}
    (hmem : (name, value.toJson) ∈ Node.fields Literal.toJson form := by simp [Node.fields]) :
    held.requirement name = .ok value :=
  h.orElse_eq hmem value.reads

/-- Groups of fields that several forms share are read back together. -/
theorem functionParts_eq (h : held.Holds form) {parts : FunctionParts Node}
    (hfields : Node.fields Literal.toJson form = functionFields Literal.toJson parts)
    (hsub : parts.identifier.toList ++ parts.signature.toList ++
      parts.body.toList = form.children) :
    held.functionParts = .ok parts := by
  cases parts
  refine bind_eq_ok (h.texts_eq ?_) (bind_eq_ok (h.child_eq ?_ ?_) (bind_eq_ok (h.child_eq ?_ ?_)
    (bind_eq_ok (h.child_eq ?_ ?_) rfl)))
  all_goals simp +contextual [hfields, functionFields, ← hsub]

theorem compositeParts_eq (h : held.Holds form) {parts : CompositeParts Node}
    (hfields : Node.fields Literal.toJson form = compositeFields Literal.toJson parts)
    (hsub : parts.identifier.toList ++ parts.genericParameters ++ parts.inheritedTypes ++
      parts.body.toList = form.children) :
    held.compositeParts = .ok parts := by
  cases parts
  refine bind_eq_ok (h.texts_eq ?_) (bind_eq_ok (h.child_eq ?_ ?_) (bind_eq_ok (h.nodes_eq ?_ ?_)
    (bind_eq_ok (h.nodes_eq ?_ ?_) (bind_eq_ok (h.child_eq ?_ ?_) rfl))))
  all_goals simp +contextual [hfields, compositeFields, ← hsub]

theorem signatureParts_eq {parts : SignatureParts Node} (h : held.Holds (.signature parts)) :
    held.signatureParts = .ok parts := by
  cases parts
  exact bind_eq_ok h.nodes_eq <| bind_eq_ok h.nodes_eq <| bind_eq_ok h.requirement_eq <|
    bind_eq_ok h.requirement_eq <| bind_eq_ok h.requirement_eq <| bind_eq_ok h.requirement_eq <|
      bind_eq_ok h.child_eq rfl

/-- A form is read from its label. -/
theorem form_eq (h : held.Holds form)
    (hliteral : ∀ sort value, form = .literal sort value → value.IsFinite) :
    held.form form.label = .ok form := by
  cases form with
  | nilLiteral | protocolType | unsupported => rfl
  | identifier text | stringSegment text | predefinedType text => exact bind_eq_ok h.text_eq rfl
  | operator fixity symbol => cases fixity <;> exact bind_eq_ok h.text_eq rfl
  | literal sort value =>
    have hread : held.need "value" Literal.decoder = .ok value :=
      h.need_eq (by simp [Node.fields]) (Literal.reads (hliteral sort value rfl))
    cases sort <;> exact bind_eq_ok hread rfl
  | module nodes | body nodes | stringLiteral nodes | arrayLiteral nodes | dictionaryLiteral nodes
  | sequence nodes | unionType nodes | intersectionType nodes => exact bind_eq_ok h.nodes_eq rfl
  | stringExpression a | parenthesized a | inoutExpression a | nillableExpression a
      | deleteExpression a
  | typeExpression a | deinitializerDeclaration a | importDeclaration a | returnStatement a
      | throwStatement a
  | breakStatement a | continueStatement a | arrayType a => exact bind_eq_ok h.child_eq rfl
  | modifiedType modifier a => cases modifier <;> exact bind_eq_ok h.child_eq rfl
  | tryExpression nillable a => exact bind_eq_ok h.flag_eq <| bind_eq_ok h.child_eq rfl
  | entry a b | prefixed a b | postfixed a b | argument a b | chain a b | observerDeclaration a b
  | genericParameter a b | whileStatement a b | dictionaryType a b =>
    exact bind_eq_ok h.child_eq <| bind_eq_ok h.child_eq rfl
  | typeIdentifier a nodes => exact bind_eq_ok h.child_eq <| bind_eq_ok h.nodes_eq rfl
  | variableDeclaration modifiers nodes => exact bind_eq_ok h.texts_eq <| bind_eq_ok h.nodes_eq rfl
  | operatorDeclaration modifiers a b =>
    exact bind_eq_ok h.texts_eq <| bind_eq_ok h.child_eq <| bind_eq_ok h.child_eq rfl
  | ifStatement a b c =>
    exact bind_eq_ok h.child_eq <| bind_eq_ok h.child_eq <| bind_eq_ok h.child_eq rfl
  | declarator a b c d | parameter a b c d =>
    exact bind_eq_ok h.child_eq <| bind_eq_ok h.child_eq <| bind_eq_ok h.child_eq <|
      bind_eq_ok h.child_eq rfl
  | initializerDeclaration modifiers nillable a b =>
    exact bind_eq_ok h.texts_eq <| bind_eq_ok h.flag_eq <| bind_eq_ok h.child_eq <|
      bind_eq_ok h.child_eq rfl
  | call a generics arguments b | subscript a generics arguments b =>
    exact bind_eq_ok h.child_eq <| bind_eq_ok h.nodes_eq <| bind_eq_ok h.nodes_eq <|
      bind_eq_ok h.child_eq rfl
  | functionType generics parameters awaits throws a =>
    exact bind_eq_ok h.nodes_eq <| bind_eq_ok h.nodes_eq <| bind_eq_ok h.requirement_eq <|
      bind_eq_ok h.requirement_eq <| bind_eq_ok h.child_eq rfl
  | functionExpression parts | functionDeclaration parts =>
      exact bind_eq_ok (h.functionParts_eq rfl rfl) rfl
  | compositeExpression kind parts | compositeDeclaration kind parts =>
    have hread := h.compositeParts_eq rfl rfl
    cases kind <;> exact bind_eq_ok hread rfl
  | signature parts => exact bind_eq_ok h.signatureParts_eq rfl

end Holds

end Held

/-- Positions fit and floats have digits, in a node and in all nodes below. -/
inductive Writable : Node → Prop
  | mk {range : Range} {form : Form Node} (hrange : range.Fits)
      (hliteral : ∀ sort value, form = .literal sort value → value.IsFinite)
      (hchildren : ∀ node ∈ form.children, Writable node) : Writable (.mk range form)

/-- Where no field is called `range`, the fields are only looked through for faults. -/
theorem rangeAndRest_of_not_mem {pass : Pass} {levels : Nat} {range : Option Range}
    {fields : List (String × Json)}
    (hname : "range" ∉ fields.map Prod.fst) (hdepth : ∀ field ∈ fields, field.2.depth ≤ levels) :
    rangeAndRest pass levels (Draft.ofFields fields) range = .ok range := by
  induction fields with
  | nil => rfl
  | cons field rest ih =>
    rw [List.map_cons, List.mem_cons, not_or] at hname
    have hne : (field.1 == "range") = false := by simpa using Ne.symm hname.1
    have hsettle := Draft.settle_ofJson (hdepth field List.mem_cons_self)
    have hrest := ih hname.2 fun x hx => hdepth x (List.mem_cons_of_mem _ hx)
    rw [Draft.ofFields, rangeAndRest, hne]
    cases pass with
    | direct => exact (congrArg (· >>= _) hsettle).trans hrest
    | held => exact hrest

/-- A node is read as it was written; the depth of nodes is bounded by the limit on nesting. -/
theorem reads_decoderTo (limit : Nat) {node : Node} (h : node.Writable) :
    (decoderTo (limit + 1)).Reads limit node.toJson node := by
  induction limit generalizing node with
  | zero =>
    intro pass levels hd hl
    cases node
    exact absurd (Nat.le_trans hd hl) (by simp [toJson, document, Json.depth])
  | succ limit ih =>
    intro pass levels hd hl
    cases h with
    | @mk range form hrange hliteral hchildren =>
      cases levels with
      | zero => exact absurd hd (by simp [toJson, document, Json.depth])
      | succ levels =>
        have hlevels : levels ≤ limit := Nat.le_of_succ_le_succ hl
        have hdepth := Json.depthFields_le_iff.mp (Nat.le_of_succ_le_succ hd)
        let all :=
          ("range", range.toJson) :: ("type", Json.text form.name) :: fields Literal.toJson form
        have hnames : (all.map Prod.fst).Nodup := nodup_names_fields form
        have hrange : rangeAndRest pass levels (Draft.ofFields all) none = .ok (some range) := by
          have hfound :=
            Range.reads hrange pass levels (hdepth _ List.mem_cons_self) (Nat.le_refl levels)
          refine bind_eq_ok hfound (rangeAndRest_of_not_mem (List.nodup_cons.mp hnames).1 ?_)
          exact fun x hx => hdepth x (List.mem_cons_of_mem _ hx)
        -- What is held back, once the range is read.
        let held : Held := ⟨Draft.ofFields all, levels, decoderTo (limit + 1)⟩
        have hfind : ∀ field ∈ all, held.find field.1 = .ok (some (.ofJson field.2)) :=
          fun _ hmem => Held.find_eq rfl hnames hmem
        have hholds : held.Holds form :=
          ⟨fun x hx => hfind x (List.mem_cons_of_mem _ (List.mem_cons_of_mem _ hx)),
            fun x hx => hdepth x (List.mem_cons_of_mem _ (List.mem_cons_of_mem _ hx)),
            fun n hn => (ih (hchildren n hn)).mono hlevels⟩
        have htype := hfind _ (List.mem_cons_of_mem _ List.mem_cons_self)
        exact bind_eq_ok rfl <| bind_eq_ok hrange <| bind_eq_ok rfl <| bind_eq_ok htype <|
          bind_eq_ok (Form.labelOf_name form.label) <| bind_eq_ok (hholds.form_eq hliteral) rfl

/-- By induction on the node: every form reads its own fields back. -/
theorem reads {node : Node} (h : node.Writable) : decoder.Reads nestingLimit node.toJson node :=
  reads_decoderTo nestingLimit h

theorem ranged_fields {form : Form Node} (h : ∀ node ∈ form.children, node.toJson.Ranged) :
    ∀ field ∈ fields Literal.toJson form, field.2.Ranged := by
  cases form with
  | functionExpression parts | functionDeclaration parts =>
    cases parts
    simp_all [fields, functionFields, Form.children, child_eq_ofOption, or_imp, forall_and]
  | compositeExpression _ parts | compositeDeclaration _ parts =>
    cases parts
    simp_all [fields, compositeFields, Form.children, child_eq_ofOption, nodes_eq_map,
      or_imp, forall_and]
  | _ => simp_all [fields, Form.children, child_eq_ofOption, nodes_eq_map, or_imp, forall_and]

/-- The numbers in a tree are those of its ranges and literals. -/
theorem ranged {node : Node} (h : node.Writable) : node.toJson.Ranged := by
  induction h with
  | mk hrange _ _ ih =>
    rw [toJson, document, Json.ranged_object, List.forall_mem_cons, List.forall_mem_cons]
    exact ⟨Range.ranged hrange, Json.ranged_text _, ranged_fields ih⟩

end Node

end CompositeGraph
