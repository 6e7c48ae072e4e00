/-
  PROGRAMS are read as they were written.

  What is read of a text is put into one form: bodies get one name, unknown fields are gone, and
  ranges and lists that were left out are there.  So a program is read from its own text, unless
  that nests too deep; and it may do so where the text that the program came from did not, since
  what was left out is now written.

    1. RESULTS.   `Decoder.Gives`: what every value that is decoded has.  It is put together the way
                  decoders are.
    2. NODES.     Nodes that are decoded can be written.
    3. PROGRAMS.  Reading what was written of a program, and of what was read.
-/
import CompositeGraph.Proofs.Magnitudes
import CompositeGraph.Proofs.Resumption

namespace CompositeGraph

open Sketch

/-! ## Results -/

namespace Decoder

variable {α β σ : Type} {P : α → Prop} {Q : β → Prop}

/-- If there is a result, it has a property. -/
def Ensures (x : Except Fault α) (P : α → Prop) : Prop := ∀ a, x = .ok a → P a

theorem ensures_pure {a : α} (h : P a) : Ensures (pure a) P := by
  rintro _ ⟨⟩
  exact h

/-- What a step ensures may be used by the next. -/
theorem Ensures.bind {x : Except Fault α} {f : α → Except Fault β} (hx : Ensures x P)
    (hf : ∀ a, P a → Ensures (f a) Q) : Ensures (x >>= f) Q := by
  intro b hb
  obtain ⟨a, ha, hb⟩ := exists_of_bind_eq_ok hb
  exact hf a (hx a ha) b hb

theorem ensures_error (fault : Fault) : Ensures (.error fault) P := by
  rintro _ ⟨⟩

/-- What a decoder makes of a draft with bounded numbers has a property. -/
def Gives (decoder : Decoder α) (P : α → Prop) : Prop :=
  ∀ pass levels draft, draft.Bounded → Ensures (decoder pass levels draft) P

theorem Gives.map {decoder : Decoder α} {f : α → β} (h : decoder.Gives P)
    (hf : ∀ a, P a → Q (f a)) :
    Gives (fun pass levels draft => f <$> decoder pass levels draft) Q := by
  intro pass levels draft hdraft b hb
  obtain ⟨a, ha, rfl⟩ := exists_of_map_eq_ok hb
  exact hf a (h pass levels draft hdraft a ha)

theorem gives_any (decoder : Decoder α) : decoder.Gives fun _ => True := fun _ _ _ _ _ _ => trivial

/-- Numbers that do not fit their word are faults. -/
theorem gives_natural (bits : Nat) : (natural bits).Gives (· < 2 ^ bits) := by
  have hinteger : (integer 0 (Nat.pow 2 bits - 1)).Gives fun n =>
    0 ≤ n ∧ n ≤ Nat.pow 2 bits - 1 := by
    intro pass levels draft hdraft
    cases draft with
    | int n =>
      intro a ha
      rw [integer] at ha
      split at ha
      · next hbounds =>
        cases ha
        exact hbounds
      · cases ha
    | _ => rintro _ ⟨⟩
  refine hinteger.map fun n hn => ?_
  have hpow : Nat.pow 2 bits = 2 ^ bits := rfl
  have hpositive := Nat.two_pow_pos bits
  omega

theorem gives_nullable {decoder : Decoder α} (h : decoder.Gives P) :
    (nullable decoder).Gives fun value => ∀ a ∈ value.toList, P a := by
  have hsome (pass : Pass) (levels : Nat) {draft : Draft} (hdraft : draft.Bounded) :
      Ensures (some <$> decoder pass levels draft) fun value => ∀ a ∈ value.toList, P a :=
    h.map (fun a ha => List.forall_mem_singleton.mpr ha) pass levels draft hdraft
  intro pass levels draft hdraft
  cases draft with
  | null => exact ensures_pure fun _ ha => absurd ha List.not_mem_nil
  | _ => exact hsome pass levels hdraft

/-- What is ensured of each item holds of all. -/
theorem ensures_mapM {γ : Type} {f : γ → Except Fault α} {items : List γ}
    (h : ∀ item ∈ items, Ensures (f item) P) :
    Ensures (items.mapM f) fun values => ∀ a ∈ values, P a := by
  induction items with
  | nil => exact ensures_pure fun _ ha => absurd ha List.not_mem_nil
  | cons item rest ih =>
    obtain ⟨hitem, hrest⟩ := List.forall_mem_cons.mp h
    rw [List.mapM_cons]
    exact hitem.bind fun a ha => (ih hrest).bind fun others hothers =>
      ensures_pure (List.forall_mem_cons.mpr ⟨ha, hothers⟩)

theorem ensures_any (x : Except Fault α) : Ensures x fun _ => True := fun _ _ => trivial

theorem gives_list {decoder : Decoder α} (h : decoder.Gives P) :
    (list decoder).Gives fun values => ∀ a ∈ values, P a := by
  intro pass levels draft hdraft
  cases hdraft with
  | @list items fault hitems =>
    refine (ensures_any _).bind fun levels _ => ?_
    have hvalues := ensures_mapM fun item hitem => h pass levels item (hitems item hitem)
    exact hvalues.bind fun values hvalues => (ensures_any _).bind fun _ _ => ensures_pure hvalues
  | _ => rintro _ ⟨⟩

/-- A field that is put in keeps a property of the record. -/
def Keeps (I : σ → Prop) (f : Field σ) : Prop := f.decode.Gives fun update => ∀ state,
    I state → I (update state)

/-- Reading a field keeps an invariant of the record that setting it keeps. -/
theorem keeps_field {name : String} {presence : Presence} {decoder : Decoder α}
    {put : α → σ → σ} {I : σ → Prop}
    (h : decoder.Gives P) (hput : ∀ a, P a → ∀ state, I state → I (put a state)) :
    Keeps I (field name presence decoder put) := h.map hput

/-- By induction on the fields given: fields in any order keep the invariant. -/
theorem ensures_byName {declared : List (Field σ)} {I : σ → Prop}
    (hdeclared : ∀ f ∈ declared, Keeps I f) (pass : Pass)
    (levels : Nat) {fields : List (String × Draft)}
    (hfields : ∀ field ∈ fields, field.2.Bounded) (seen : List Nat) {state : σ} (hstate : I state) :
      Ensures (byName declared pass levels fields seen state) fun read => I read.2 := by
  induction fields generalizing seen state with
  | nil => exact ensures_pure hstate
  | cons field rest ih =>
    obtain ⟨hfield, hrest⟩ := List.forall_mem_cons.mp hfields
    rw [byName]
    split
    · exact (ensures_any _).bind fun _ _ => ih hrest seen hstate
    · next f i hfind =>
      have hmem : f ∈ declared := by
        obtain ⟨_, hf⟩ := List.mem_zipIdx' (List.mem_of_find?_eq_some hfind)
        exact hf ▸ List.getElem_mem _
      split
      · exact ensures_error _
      · exact (hdeclared f hmem pass levels field.2 hfield).bind fun update hupdate =>
          ih hrest _ (hupdate state hstate)

theorem ensures_byPosition {declared : List (Field σ)} {I : σ → Prop}
    (hdeclared : ∀ f ∈ declared, Keeps I f)
    (pass : Pass) (levels : Nat) (fault : Option Fault) {items : List Draft}
    (hitems : ∀ item ∈ items, item.Bounded) {state : σ} (hstate : I state) :
      Ensures (byPosition pass levels fault declared items state) I := by
  induction declared generalizing items state with
  | nil =>
    rw [byPosition]
    split
    · exact ensures_error _
    · exact (ensures_any _).bind fun _ _ => ensures_pure hstate
  | cons f declared ih =>
    obtain ⟨hf, hdeclared⟩ := List.forall_mem_cons.mp hdeclared
    cases items with
    | nil =>
      rw [byPosition]
      refine (ensures_any _).bind fun _ _ => ?_
      split
      · exact ih hdeclared hitems hstate
      · exact ensures_error _
    | cons item items =>
      obtain ⟨hitem, hitems⟩ := List.forall_mem_cons.mp hitems
      exact (hf pass levels item hitem).bind fun update hupdate =>
        ih hdeclared hitems (hupdate state hstate)

/-- A record has the invariant, whether written by name or by position. -/
theorem gives_record {start : σ} {declared : List (Field σ)} {I : σ → Prop} (hstart : I start)
    (hdeclared : ∀ f ∈ declared, Keeps I f) : (record start declared).Gives I := by
  intro pass levels draft hdraft
  cases hdraft with
  | @object fields fault hfields =>
    refine (ensures_any _).bind fun levels _ =>
      (ensures_byName hdeclared pass levels hfields [] hstart).bind
      fun read hread => (ensures_any _).bind fun _ _ => ?_
    split
    · exact ensures_error _
    · exact ensures_pure hread
  | @list items fault hitems =>
    exact (ensures_any _).bind fun levels _ =>
      ensures_byPosition hdeclared pass levels fault hitems hstart
  | _ => rintro _ ⟨⟩

end Decoder

open Decoder (Ensures Gives ensures_pure ensures_error ensures_any gives_any gives_natural
  gives_nullable gives_list gives_record keeps_field demands_leaf demands_list demands_record)

/-! ## Nodes -/

theorem Range.gives : Range.decoder.Gives Range.Fits := by
  refine gives_record ⟨by decide, by decide⟩
    (List.forall_mem_cons.mpr ⟨?_, List.forall_mem_singleton.mpr ?_⟩)
  · exact keeps_field (gives_natural 64) fun start hstart range hrange => ⟨hstart, hrange.2⟩
  · exact keeps_field (gives_natural 64) fun stop hstop range hrange => ⟨hrange.1, hstop⟩

theorem Literal.gives : Literal.decoder.Gives Literal.IsFinite := by
  intro pass levels draft hdraft
  cases hdraft with
  | text value => exact ensures_pure trivial
  | bool value => exact ensures_pure trivial
  | float h => exact ensures_pure h
  | @int value hvalue =>
    have hfinite := (below_ofNat hvalue).isFinite
    intro literal hliteral
    rw [Literal.decoder] at hliteral
    split at hliteral
    · cases hliteral
      trivial
    · cases hliteral
      rw [Literal.IsFinite]
      split
      · exact isFinite_neg hfinite
      · exact hfinite
  | _ => rintro _ ⟨⟩

/-- What is needed of a form to be written. -/
def Form.Writable (form : Form Node) : Prop :=
  (∀ sort value, form = .literal sort value → value.IsFinite) ∧
    ∀ node ∈ form.children, node.Writable

def Form.isLiteral : Form Node → Bool
  | .literal _ _ => true
  | _ => false

/-- Only literals ask for more than writable children. -/
theorem Form.Writable.of_children {form : Form Node} (hform : form.isLiteral = false)
    (h : ∀ node ∈ form.children, node.Writable) : form.Writable := by
  refine ⟨?_, h⟩
  rintro sort value rfl
  cases hform

namespace Node

namespace Held

variable {α : Type} {held : Held}

/-- What is held back has bounded numbers, and children that are decoded can be written. -/
structure Sound (held : Held) : Prop where
  bounded : ∀ field ∈ held.fields, field.2.Bounded
  node : held.node.Gives Node.Writable

namespace Sound

/-- What is found in a bounded draft is bounded. -/
theorem ensures_find (h : held.Sound) (name : String) :
    Ensures (held.find name) fun found => ∀ draft ∈ found, draft.Bounded := by
  intro found hfound
  rw [find] at hfound
  split at hfound
  · cases hfound
    exact fun _ hdraft => absurd hdraft (Option.not_mem_none _)
  · next fieldName draft hfilter =>
    cases hfound
    have hmem : (fieldName, draft) ∈ held.fields :=
      List.mem_of_mem_filter (hfilter ▸ List.mem_singleton_self _)
    rintro _ ⟨⟩
    exact h.bounded _ hmem
  · cases hfound

theorem ensures_orElse {P : α → Prop} {decoder : Decoder α} {default : α}
    (h : held.Sound) (name : String) (hdefault : P default) (hdecoder : decoder.Gives P) :
      Ensures (held.orElse name default decoder) P := by
  refine (h.ensures_find name).bind fun found hfound => ?_
  cases found with
  | none => exact ensures_pure hdefault
  | some draft => exact hdecoder .held held.levels draft (hfound draft rfl)

theorem ensures_need {P : α → Prop} {decoder : Decoder α} (h : held.Sound) (name : String)
    (hdecoder : decoder.Gives P) : Ensures (held.need name decoder) P := by
  refine (h.ensures_find name).bind fun found hfound => ?_
  cases found with
  | none => exact ensures_error _
  | some draft => exact hdecoder .held held.levels draft (hfound draft rfl)

theorem ensures_child (h : held.Sound) (name : String) :
    Ensures (held.child name) fun node => ∀ n ∈ node.toList, n.Writable :=
  h.ensures_orElse name (fun _ hn => absurd hn List.not_mem_nil) (gives_nullable h.node)

theorem ensures_nodes (h : held.Sound) (name : String) :
    Ensures (held.nodes name) fun nodes => ∀ n ∈ nodes, n.Writable :=
  h.ensures_orElse name (fun _ hn => absurd hn List.not_mem_nil) (gives_list h.node)

theorem ensures_functionParts (h : held.Sound) : Ensures held.functionParts fun parts =>
    ∀ n ∈ parts.identifier.toList ++ parts.signature.toList ++ parts.body.toList, n.Writable :=
  (ensures_any _).bind fun _ _ => (h.ensures_child _).bind fun _ ha =>
    (h.ensures_child _).bind fun _ hb =>
      (h.ensures_child _).bind fun _ hc =>
        ensures_pure (List.forall_mem_append.mpr ⟨List.forall_mem_append.mpr ⟨ha, hb⟩, hc⟩)

theorem ensures_compositeParts (h : held.Sound) : Ensures held.compositeParts fun parts =>
    ∀ n ∈ parts.identifier.toList ++ parts.genericParameters ++ parts.inheritedTypes ++
      parts.body.toList, n.Writable :=
  (ensures_any _).bind fun _ _ => (h.ensures_child _).bind fun _ ha =>
    (h.ensures_nodes _).bind fun _ hb =>
      (h.ensures_nodes _).bind fun _ hc => (h.ensures_child _).bind fun _ hd =>
        ensures_pure (List.forall_mem_append.mpr
        ⟨List.forall_mem_append.mpr ⟨List.forall_mem_append.mpr ⟨ha, hb⟩, hc⟩, hd⟩)

theorem ensures_signatureParts (h : held.Sound) : Ensures held.signatureParts fun parts =>
    ∀ n ∈ parts.genericParameters ++ parts.parameters ++ parts.returnType.toList, n.Writable :=
  (h.ensures_nodes _).bind fun _ ha => (h.ensures_nodes _).bind fun _ hb =>
    (ensures_any _).bind fun _ _ =>
    (ensures_any _).bind fun _ _ => (ensures_any _).bind fun _ _ => (ensures_any _).bind fun _ _ =>
      (h.ensures_child _).bind fun _ hc =>
        ensures_pure (List.forall_mem_append.mpr ⟨List.forall_mem_append.mpr ⟨ha, hb⟩, hc⟩)

/-- A form that is decoded can be written. -/
theorem ensures_form (h : held.Sound) (label : Label) :
    Ensures (held.form label) Form.Writable := by
  have hnone : ∀ n ∈ ([] : List Node), n.Writable := fun _ hn => absurd hn List.not_mem_nil
  cases label with
  | nilLiteral | protocolType | unsupported => exact ensures_pure (.of_children rfl hnone)
  | identifier | stringSegment | predefinedType | infixOperator | prefixOperator
      | postfixOperator =>
    exact (ensures_any _).bind fun _ _ => ensures_pure (.of_children rfl hnone)
  | booleanLiteral | integerLiteral | floatLiteral =>
    refine (h.ensures_need _ Literal.gives).bind fun literal hliteral => ensures_pure ⟨?_, hnone⟩
    rintro _ _ ⟨⟩
    exact hliteral
  | module | functionBody | stringLiteral | arrayLiteral | dictionaryLiteral
      | expressionsSequence | unionType
  | intersectionType =>
    exact (h.ensures_nodes _).bind fun _ ha => ensures_pure (.of_children rfl ha)
  | stringExpression | parenthesizedExpression | inoutExpression | nillableExpression
      | deleteExpression
  | typeExpression | deinitializerDeclaration | importDeclaration | returnStatement
      | throwStatement | breakStatement
  | continueStatement | arrayType | nillableType | defaultType | inoutType | variadicType
      | parenthesizedType =>
    exact (h.ensures_child _).bind fun _ ha => ensures_pure (.of_children rfl ha)
  | tryExpression =>
    exact (ensures_any _).bind fun _ _ => (h.ensures_child _).bind fun _ ha =>
      ensures_pure (.of_children rfl ha)
  | entry | prefixExpression | postfixExpression | argument | chainExpression | observerDeclaration
  | genericParameter | whileStatement | dictionaryType =>
    exact (h.ensures_child _).bind fun _ ha => (h.ensures_child _).bind fun _ hb =>
      ensures_pure (.of_children rfl (List.forall_mem_append.mpr ⟨ha, hb⟩))
  | typeIdentifier =>
    exact (h.ensures_child _).bind fun _ ha => (h.ensures_nodes _).bind fun _ hb =>
      ensures_pure (.of_children rfl (List.forall_mem_append.mpr ⟨ha, hb⟩))
  | variableDeclaration =>
    exact (ensures_any _).bind fun _ _ => (h.ensures_nodes _).bind fun _ ha =>
      ensures_pure (.of_children rfl ha)
  | operatorDeclaration =>
    exact (ensures_any _).bind fun _ _ => (h.ensures_child _).bind fun _ ha =>
      (h.ensures_child _).bind fun _ hb =>
        ensures_pure (.of_children rfl (List.forall_mem_append.mpr ⟨ha, hb⟩))
  | initializerDeclaration =>
    exact (ensures_any _).bind fun _ _ => (ensures_any _).bind fun _ _ =>
      (h.ensures_child _).bind fun _ ha =>
        (h.ensures_child _).bind fun _ hb =>
          ensures_pure (.of_children rfl (List.forall_mem_append.mpr ⟨ha, hb⟩))
  | ifStatement =>
    exact (h.ensures_child _).bind fun _ ha => (h.ensures_child _).bind fun _ hb =>
      (h.ensures_child _).bind fun _ hc =>
        ensures_pure (.of_children rfl
        (List.forall_mem_append.mpr ⟨List.forall_mem_append.mpr ⟨ha, hb⟩, hc⟩))
  | declarator | parameter =>
    exact (h.ensures_child _).bind fun _ ha => (h.ensures_child _).bind fun _ hb =>
      (h.ensures_child _).bind fun _ hc =>
        (h.ensures_child _).bind fun _ hd => ensures_pure (.of_children rfl
        (List.forall_mem_append.mpr
          ⟨List.forall_mem_append.mpr ⟨List.forall_mem_append.mpr ⟨ha, hb⟩, hc⟩, hd⟩))
  | callExpression | subscriptExpression =>
    exact (h.ensures_child _).bind fun _ ha => (h.ensures_nodes _).bind fun _ hb =>
      (h.ensures_nodes _).bind fun _ hc =>
        (h.ensures_child _).bind fun _ hd => ensures_pure (.of_children rfl
        (List.forall_mem_append.mpr
          ⟨List.forall_mem_append.mpr ⟨List.forall_mem_append.mpr ⟨ha, hb⟩, hc⟩, hd⟩))
  | functionType =>
    exact (h.ensures_nodes _).bind fun _ ha => (h.ensures_nodes _).bind fun _ hb =>
      (ensures_any _).bind fun _ _ =>
        (ensures_any _).bind fun _ _ => (h.ensures_child _).bind fun _ hc =>
          ensures_pure (.of_children rfl
          (List.forall_mem_append.mpr ⟨List.forall_mem_append.mpr ⟨ha, hb⟩, hc⟩))
  | functionExpression | functionDeclaration =>
    exact h.ensures_functionParts.bind fun _ ha => ensures_pure (.of_children rfl ha)
  | classExpression | structureExpression | enumerationExpression | protocolExpression
      | namespaceExpression
  | classDeclaration | structureDeclaration | enumerationDeclaration | protocolDeclaration
      | namespaceDeclaration =>
    exact h.ensures_compositeParts.bind fun _ ha => ensures_pure (.of_children rfl ha)
  | functionSignature =>
    exact h.ensures_signatureParts.bind fun _ ha => ensures_pure (.of_children rfl ha)

end Sound

end Held

theorem ensures_rangeAndRest (pass : Pass) (levels : Nat) {fields : List (String × Draft)}
    (hfields : ∀ field ∈ fields, field.2.Bounded) {range : Option Range}
    (hrange : ∀ r ∈ range, r.Fits) :
    Ensures (rangeAndRest pass levels fields range) fun read => ∀ r ∈ read, r.Fits := by
  induction fields generalizing range with
  | nil => exact ensures_pure hrange
  | cons field rest ih =>
    obtain ⟨hfield, hrest⟩ := List.forall_mem_cons.mp hfields
    rw [rangeAndRest]
    split
    · split
      · exact ensures_error _
      · refine (Range.gives pass levels field.2 hfield).bind fun found hfound => ih hrest ?_
        rintro _ ⟨⟩
        exact hfound
    · split
      · exact (ensures_any _).bind fun _ _ => ih hrest hrange
      · exact ih hrest hrange

/-- A node that is decoded can be written. -/
theorem gives_decoderTo (depth : Nat) : (decoderTo depth).Gives Node.Writable := by
  induction depth with
  | zero => exact fun _ _ _ _ => ensures_error _
  | succ depth ih =>
    intro pass levels draft hdraft
    cases hdraft with
    | @object fields fault hfields =>
      have hstart : ∀ r ∈ (none : Option Range), r.Fits :=
        fun _ hr => absurd hr (Option.not_mem_none _)
      refine (ensures_any _).bind fun levels _ =>
        (ensures_rangeAndRest pass levels hfields hstart).bind
        fun range hrange => (ensures_any _).bind fun _ _ => (ensures_any _).bind fun tag _ => ?_
      have hfits : (range.getD {}).Fits := by
        cases range with
        | none => exact ⟨by decide, by decide⟩
        | some range => exact hrange range rfl
      cases tag with
      | none => exact ensures_error _
      | some tag =>
        have hsound : Held.Sound ⟨fields, levels, decoderTo depth⟩ := ⟨hfields, ih⟩
        exact (ensures_any _).bind fun label _ => (hsound.ensures_form label).bind fun form hform =>
          ensures_pure (.mk hfits hform.1 hform.2)
    | _ => rintro _ ⟨⟩

end Node

/-! ## Programs -/

def Location.Fits (location : Location) : Prop := location.line < 2 ^ 64 ∧ location.column < 2 ^ 64

namespace Location

theorem reads {limit : Nat} {location : Location} (h : location.Fits) :
    Location.decoder.Reads limit location.toJson location :=
  Decoder.reads_record (by decide) <| .written (Decoder.reads_natural h.1) <|
    .written (Decoder.reads_natural h.2) .done

theorem ranged {location : Location} (h : location.Fits) : location.toJson.Ranged := by
  simp [toJson, Json.ranged_ofNat h.1, Json.ranged_ofNat h.2]

theorem demands (location : Location) : Location.decoder.Demands location.toJson True :=
  demands_record (by decide) <| .plain (demands_leaf rfl) <| .plain (demands_leaf rfl) .done

theorem gives : Location.decoder.Gives Location.Fits := by
  refine gives_record ⟨by decide, by decide⟩
    (List.forall_mem_cons.mpr ⟨?_, List.forall_mem_singleton.mpr ?_⟩)
  · exact keeps_field (gives_natural 64) fun line hline location hlocation => ⟨hline, hlocation.2⟩
  · exact keeps_field (gives_natural 64) fun column hcolumn location hlocation =>
      ⟨hlocation.1, hcolumn⟩

end Location

/-- The numbers of a token have 64 bits. -/
def Token.Fits (token : Token) : Prop := token.position < 2 ^ 64 ∧ token.location.Fits

namespace Token

theorem reads {limit : Nat} {token : Token} (h : token.Fits) :
    Token.decoder.Reads limit token.toJson token :=
  Decoder.reads_record (by decide) <| .written (Decoder.reads_natural h.1) <|
    .written (Location.reads h.2) <|
    .written (Decoder.reads_text _) <| .written (Decoder.reads_text _) .done

theorem ranged {token : Token} (h : token.Fits) : token.toJson.Ranged := by
  simp [toJson, Json.ranged_ofNat h.1, Location.ranged h.2]

theorem demands (token : Token) : Token.decoder.Demands token.toJson True :=
  demands_record (by decide) <| .plain (demands_leaf rfl) <| .plain token.location.demands <|
    .plain (demands_leaf rfl) <| .plain (demands_leaf rfl) .done

theorem gives : Token.decoder.Gives Token.Fits := by
  refine gives_record ⟨by decide, by decide, by decide⟩ ?_
  simp only [List.forall_mem_cons]
  refine ⟨?_, ?_, ?_, ?_, fun _ hf => absurd hf List.not_mem_nil⟩
  · exact keeps_field (gives_natural 64) fun position hposition token htoken =>
      ⟨hposition, htoken.2⟩
  · exact keeps_field Location.gives fun location hlocation token htoken => ⟨htoken.1, hlocation⟩
  · exact keeps_field (gives_any _) fun _ _ _ htoken => htoken
  · exact keeps_field (gives_any _) fun _ _ _ htoken => htoken

end Token

namespace Program

variable {program : Program} {text : String}

/-- Positions have 64 bits and the floats of literals have digits, in all tokens and nodes. -/
def Writable (program : Program) : Prop :=
  (∀ token ∈ program.tokens, token.Fits) ∧ program.tree.Writable

theorem reads (h : program.Writable) : Program.decoder.Reads nestingLimit program.toJson program :=
  Decoder.reads_record (by decide) <|
    .written (Decoder.reads_list fun token htoken => Token.reads (h.1 token htoken)) <|
      .written (Node.reads h.2) .done

theorem ranged (h : program.Writable) : program.toJson.Ranged := by
  have htokens := fun token htoken => Token.ranged (h.1 token htoken)
  simpa [toJson, Node.ranged h.2] using htokens

theorem demands (program : Program) : Program.decoder.Demands program.toJson True :=
  demands_record (by decide) <|
    .plain ((demands_list fun token _ => token.demands).weaken fun _ => trivial) <|
      .plain program.tree.demands .done

theorem gives : Program.decoder.Gives Program.Writable := by
  have hdefault : (default : Node).Writable :=
    .mk ⟨by decide, by decide⟩ (by rintro _ _ ⟨⟩) fun _ hn => absurd hn List.not_mem_nil
  refine gives_record ⟨fun _ ht => absurd ht List.not_mem_nil, hdefault⟩
    (List.forall_mem_cons.mpr ⟨?_, List.forall_mem_singleton.mpr ?_⟩)
  · exact keeps_field (gives_list Token.gives) fun tokens htokens program hprogram =>
      ⟨htokens, hprogram.2⟩
  · exact keeps_field (Node.gives_decoderTo _) fun tree htree program hprogram =>
      ⟨hprogram.1, htree⟩

/-- What is read of a text can be written. -/
theorem writable_of_run (h : decoder.run text = .ok program) : program.Writable := by
  obtain ⟨read, hread, hrest⟩ := exists_of_bind_eq_ok h
  obtain ⟨_, _, hreturn⟩ := exists_of_bind_eq_ok hrest
  cases hreturn
  exact gives .direct nestingLimit _ (Document.bounded_read text) program hread

/-- The text of a program is read, as whatever program, only if it does not nest too deep. -/
theorem depth_le_of_run {other : Program} (h : program.Writable)
    (hexact : ∀ x ∈ program.toJson.floats, Json.Exact x)
    (hread : decoder.run program.toJson.render = .ok other) :
      program.toJson.depth ≤ nestingLimit := by
  rw [Snapshot.run_render (Json.legible_of_mem_leaves (ranged h) hexact)] at hread
  exact (program.demands nestingLimit other hread).1

/-- A program is read from its own text if and only if that does not nest too deep. -/
theorem run_render_iff (h : program.Writable) (hexact : ∀ x ∈ program.toJson.floats, Json.Exact x) :
    decoder.run program.toJson.render = .ok program ↔ program.toJson.depth ≤ nestingLimit := by
  refine ⟨depth_le_of_run h hexact, fun hdepth => ?_⟩
  rw [Snapshot.run_render (Json.legible_of_mem_leaves (ranged h) hexact)]
  exact reads h .direct nestingLimit hdepth (Nat.le_refl _)

/-- A program is read if its text decodes and its tree is a module. -/
theorem ofText_eq_ok_iff :
    ofText text = .ok program ↔ decoder.run text = .ok program ∧ isModule program.tree = true := by
  rw [ofText]
  cases hrun : decoder.run text with
  | error fault =>
    refine ⟨fun h => ?_, fun h => ?_⟩
    · cases h
    · cases h.1
  | ok read =>
    dsimp only
    split
    · next hmodule =>
      refine ⟨fun h => ?_, fun h => ?_⟩
      · cases h
        exact ⟨rfl, hmodule⟩
      · cases h.1
        rfl
    · next hmodule =>
      refine ⟨fun h => ?_, fun h => ?_⟩
      · cases h
      · cases h.1
        exact absurd h.2 hmodule

end Program

/-- Every program whose positions have 64 bits and whose floats have digits is read from its own
    text, if the text of each float is read as that float and the whole does not nest too deep.
    Every program that was read of a text is one of these, so it is read again, as it is, from what
    is written of it, unless that nests too deep. -/
theorem Program.read_of_written :
    (∀ program : Program, program.Writable → (∀ x ∈ program.toJson.floats, Json.Exact x) →
      (decoder.run program.toJson.render = .ok program ↔ program.toJson.depth ≤ nestingLimit)) ∧
    ∀ text program, ofText text = .ok program → (∀ x ∈ program.toJson.floats, Json.Exact x) →
      (ofText program.toJson.render = .ok program ↔ program.toJson.depth ≤ nestingLimit) := by
  refine ⟨fun program => run_render_iff, fun text program htext hexact => ?_⟩
  obtain ⟨hrun, hmodule⟩ := ofText_eq_ok_iff.mp htext
  rw [ofText_eq_ok_iff, ← run_render_iff (writable_of_run hrun) hexact]
  exact and_iff_left hmodule

namespace Sketch

/-- A float with a range, and the token that it came from. -/
def annotated : Program where
  tokens := [{ position := 3, location := ⟨1, 2⟩, kind := "float", value := "0.1" }]
  tree := .mk ⟨0, 9⟩ (.module [.mk ⟨3, 6⟩ (.literal .float (.float 0.1))])

/-- A body under another name, an unknown field and an unknown type, and no ranges. -/
def loose : Json :=
  .object [("tree",
    .object [("statements", .list [.object [("type", .text "classBody"), ("color", .int 7)],
    .object [("type", .text "lambda")]]), ("type", .text "module")])]

/-- Expressions in parentheses, one in another, without their ranges. -/
def enclosed : Nat → Json
  | 0 => .object [("type", .text "nilLiteral")]
  | depth + 1 => .object [("type", .text "parenthesizedExpression"), ("value", enclosed depth)]

/-- A text that nests to the limit. -/
def deep : Json :=
  .object [("tree", .object [("type", .text "module"), ("statements", .list [enclosed 123])])]

/-- A document without floats that is decoded as a module is read as one. -/
theorem exists_ofText (json : Json) (depth : Nat) (hplain : json.leaves.all Json.isPlain = true)
    (hread : (Program.decoder .direct nestingLimit (.ofJson json)).toOption.map
      (fun program =>
        (Program.isModule program.tree, program.toJson.floats, program.toJson.depth)) =
        some (true, [], depth)) :
    ∃ program, Program.ofText json.render = .ok program ∧
      (∀ x ∈ program.toJson.floats, Json.Exact x) ∧
      program.toJson.depth = depth := by
  obtain ⟨program, hprogram, hparts⟩ := Option.map_eq_some_iff.mp hread
  obtain ⟨hmodule, hparts⟩ := Prod.mk.inj hparts
  obtain ⟨hfloats, hdepth⟩ := Prod.mk.inj hparts
  refine ⟨program, Program.ofText_eq_ok_iff.mpr ⟨?_, hmodule⟩, ?_, hdepth⟩
  · rw [Snapshot.run_render (Json.legible_of_all_isPlain hplain)]
    cases hdecoded : Program.decoder .direct nestingLimit (.ofJson json) with
    | error fault =>
      rw [hdecoded] at hprogram
      cases hprogram
    | ok read =>
      rw [hdecoded] at hprogram
      cases hprogram
      rfl
  · rw [hfloats]
    exact fun _ hx => absurd hx List.not_mem_nil

end Sketch

/-- A float is read back with all positions around it, and a loose text is read
    as it is written then. -/
theorem Program.read_of_written_annotated :
    decoder.run annotated.toJson.render = .ok annotated ∧
      ∃ program, ofText loose.render = .ok program ∧
        ofText program.toJson.render = .ok program := by
  obtain ⟨hwritten, htexts⟩ := read_of_written
  have hwritable : annotated.Writable := by
    have htree : annotated.tree.isWritable 3 = true := by decide +kernel
    exact ⟨List.forall_mem_singleton.mpr ⟨by decide, by decide, by decide⟩,
      Node.writable_of_isWritable htree⟩
  have hfloats : annotated.toJson.floats = [0.1] := by decide +kernel
  obtain ⟨program, hprogram, hexact, hdepth⟩ :=
    exists_ofText loose 5 (by decide +kernel) (by decide +kernel)
  refine ⟨(hwritten _ hwritable ?_).mpr (by decide +kernel), program, hprogram, ?_⟩
  · rw [hfloats]
    exact List.forall_mem_singleton.mpr Snapshot.exact_tenth
  · exact (htexts _ program hprogram hexact).mpr (by rw [hdepth]; decide)

/-- A text that nests to the limit is read, but not what is written of it, with the ranges that were
    left out. -/
theorem Program.unread_of_written :
    ∃ program, ofText deep.render = .ok program ∧ ∀ other,
      ofText program.toJson.render ≠ .ok other := by
  obtain ⟨program, hprogram, hexact, hdepth⟩ :=
    exists_ofText deep 128 (by decide +kernel) (by decide +kernel)
  refine ⟨program, hprogram, fun other hother => ?_⟩
  have hwritable := writable_of_run (ofText_eq_ok_iff.mp hprogram).1
  have hle := depth_le_of_run hwritable hexact (ofText_eq_ok_iff.mp hother).1
  rw [hdepth] at hle
  exact absurd hle (by decide)

end CompositeGraph
