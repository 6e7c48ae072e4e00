/-
  EVALUATION KEEPS A DISCIPLINE: every form of node, and whole modules.

    1. ARITHMETIC.    What is computed is neither a composite nor a type.
    2. PLACES.        Naming, reading, writing and deleting what can be assigned to.
    3. OPERATORS.     Sequences, and operators before and behind their operand.
    4. EXPRESSIONS.   Literals, chains, calls, subscripts.
    5. DECLARATIONS.  Variables, functions, composites, imports.
    6. NODES.         `evalNow` and `linkNow`, form by form.
    7. MODULES.       `runModule` gives back the scopes and frames it was given.
-/
import CompositeGraph.Proofs.Execution

namespace CompositeGraph

/-! ## Arithmetic -/

namespace Arithmetic

variable {v : Value}

/-- What is computed is neither a composite nor a type. -/
theorem held_of_fitting {n : Int} (h : fitting n = .ok v) : Held.of v = [] := by
  unfold fitting at h
  split at h
  · cases h; simp [Held.of, Value.handles, Value.types]
  · cases h

/-- All of integer arithmetic goes through `fitting`; what does not fit is an error. -/
theorem held_of_onIntegers {symbol : String} {a b : Int} (h : onIntegers symbol a b = .ok v) :
    Held.of v = [] := by
  unfold onIntegers at h
  split at h
  · exact held_of_fitting h
  · exact held_of_fitting h
  · exact held_of_fitting h
  · split at h
    · cases h
    split at h
    · exact held_of_fitting h
    split at h
    · cases h
    · exact held_of_fitting h

theorem held_onFloats (symbol : String) (a b : Float) : Held.of (onFloats symbol a b) = [] := by
  unfold onFloats
  split <;> simp [Held.of, Value.handles, Value.types]

/-- A binary operator computes a truth value, a text or a number, or fails. -/
theorem held_of_binary {symbol : String} {a b : Option Value} (h : binary symbol a b = .ok v) :
    Held.of v = [] := by
  have hcompare : (Value.boolean <$> compare symbol a b) = .ok v → Held.of v = [] := by
    intro h
    cases hc : compare symbol a b with
    | error e => rw [hc] at h; cases h
    | ok x => rw [hc] at h; cases h; simp [Held.of, Value.handles, Value.types]
  unfold binary at h
  split at h
  case h_1 => cases h; simp [Held.of, Value.handles, Value.types]
  case h_2 => cases h; simp [Held.of, Value.handles, Value.types]
  case h_12 => cases h
  case h_3 | h_4 | h_5 | h_6 => exact hcompare h
  all_goals
    split at h
    · cases h; simp [Held.of, Value.handles, Value.types]
    split at h
    · exact held_of_onIntegers h
    · cases h; exact held_onFloats _ _ _
    · cases h

variable {value : Option Value}

/-- Counting up or down gives a number. -/
theorem held_of_step {delta : Int} (h : step value delta = .ok v) :
    Held.of v = [] := by
  unfold step at h
  split at h
  · exact held_of_fitting h
  · cases h; simp [Held.of, Value.handles, Value.types]
  · cases h

end Arithmetic

end CompositeGraph

namespace CompositeGraph.Discipline

open Run

variable {D : Discipline} {r r' : Rules} {m : Machine} {scope : Handle}

/-- A report is made, and nil handed on. -/
theorem Flows.reported {K : TransferKind → Prop} {level : Level} {node : Option Node}
    {message : String} : D.Flows K m (do report level node message; return (none : Option Value))
      (do report level node message; return none) :=
  (Flows.lift Keeps.report).bind fun _ _ _ _ => Flows.pure knows_none

/-! ## Places -/

section Places

variable {s : Store}

/-- To know a member as a place is to know its composite; names hold nothing. -/
theorem knows_member {composite : Handle} {name : String} {internal : Bool} :
    D.Knows s (Place.member composite name internal) ↔ D.known s composite := by
  show (∀ x ∈ [Leaf.handle composite], D.Allows s x) ↔ _
  rw [List.forall_mem_singleton]
  exact Iff.rfl

theorem knows_entry {base : Place} {key : Value} :
    D.Knows s (Place.entry base key) ↔ D.Knows s base ∧ D.Knows s key := by
  show (∀ x ∈ base.held ++ Held.of key, D.Allows s x) ↔ _
  rw [List.forall_mem_append]
  exact Iff.rfl

variable (hr : D.Minds r r')

include hr

theorem evalLinkOf_flows (node : Option Node) (hs : D.known m.store scope) :
    D.Flows any m (evalLinkOf r node scope) (evalLinkOf r' node scope) := by
  cases node with
  | none => exact Flows.pure knows_none
  | some node => exact hr.evalLink node hs

/-- A member's name is written in the chain or computed by an expression. -/
theorem memberName_flows (member : Option Node) (hs : D.known m.store scope) :
    D.Flows any m (memberName r member scope) (memberName r' member scope) := by
  unfold memberName
  cases member with
  | none => exact Flows.pure knows_none
  | some node =>
    dsimp only
    split
    · exact Flows.pure (knows_some.mpr knows_string)
    · refine (hr.eval node hs).bind fun v m₁ _ _ => ?_
      split
      · exact Flows.pure (knows_some.mpr knows_string)
      · exact Flows.pure knows_none

/-- The place an expression names is known. -/
theorem placeOf_flows (node : Node) {m : Machine} (hs : D.known m.store scope) :
    D.Flows any m (placeOf r scope node) (placeOf r' scope node) := by
  fun_induction placeOf r scope node generalizing m with
  | case1 range name => exact Flows.pure (knows_some.mpr (knows_member.mpr hs))
  | case2 range composite member =>
    refine (evalLinkOf_flows hr _ hs).bind fun base m₁ h₁ _ => Flows.get_bind ?_
    have hbase : D.Knows m₁.store (m₁.compositeOf base) := knows_compositeOf
    split
    · exact Flows.pure knows_none
    · rename_i composite hc
      have hcomposite := knows_handle.mp (knows_option.mp hbase composite hc)
      refine (memberName_flows hr _ (D.known_mono h₁ hs)).bind fun name m₂ h₂ _ => ?_
      refine Flows.pure (knows_option.mpr ?_)
      rintro p hp
      obtain ⟨n, _, rfl⟩ := Option.map_eq_some_iff.mp hp
      exact knows_member.mpr (D.known_mono h₂ hcomposite)
  | case3 range composite genericArguments arguments closure ih =>
    refine (ih hs).bind fun place m₁ h₁ hplace => ?_
    split
    · exact Flows.pure knows_none
    · refine (evalChild_flows hr _ (D.known_mono h₁ hs)).bind fun key m₂ h₂ hkey => ?_
      refine Flows.pure (knows_option.mpr ?_)
      rintro p hp
      obtain ⟨k, rfl, rfl⟩ := Option.map_eq_some_iff.mp hp
      exact knows_entry.mpr ⟨(knows_some.mp hplace).mono h₂, hkey⟩
  | case4 range value ih => exact ih hs
  | case5 node hidentifier hchain hsubscript hparenthesized =>
    rw [placeOf.eq_5 r' scope node hidentifier hchain hsubscript hparenthesized]
    exact Flows.pure knows_none

/-- Observers are called one by one, each with the value as its only argument. -/
theorem runObservers_flows (node : Node) {observers : List Observer} (name : String)
    (hobservers : D.Knows m.store observers) (hv : D.Knows m.store value) :
    D.Flows any m (runObservers r node observers name value)
      (runObservers r' node observers name value) := by
  refine Flows.forM fun observer hmem m₁ h₁ => ?_
  have hobserver := knows_list.mp hobservers observer (List.mem_filter.mp hmem).1
  refine Flows.bind ((hr.call (knows_call.mpr ⟨?_, ?_, knows_none, knows_none⟩)).weaken
    fun _ _ => trivial) fun _ _ _ _ => Flows.pure knows_unit
  · exact D.known_mono h₁ (knows_observer.mp hobserver)
  · exact knows_cons.mpr ⟨hv.mono h₁, knows_nil⟩

/-- Observers run before and after a write.  Those before may change the store, so that everything
    held across them is carried along `leads`. -/
theorem writeMember_flows (node : Node) {resolved : Resolved} (name : String)
    (hresolved : D.Knows m.store resolved) (hv : D.Knows m.store value) :
    D.Flows any m (writeMember r node resolved name value)
      (writeMember r' node resolved name value) := by
  obtain ⟨_, hoverload, _⟩ := knows_resolved.mp hresolved
  obtain ⟨htype, hold, hobservers⟩ := knows_overload.mp hoverload
  unfold writeMember
  split
  · exact Flows.pure knows_bool
  · refine (runObservers_flows hr node _ hobservers hv).bind fun _ m₁ h₁ _ => ?_
    refine (Flows.lift (hr.setMember _ _ _ ?_)).bind fun _ m₂ h₂ _ => ?_
    · exact knows_overload.mpr ⟨htype.mono h₁, hv.mono h₁, hobservers.mono h₁⟩
    · have h₂ := D.leads_trans h₁ h₂
      refine (runObservers_flows hr node _ (hobservers.mono h₂) (hold.mono h₂)).bind ?_
      exact fun _ _ _ _ => Flows.pure knows_bool

/-- Writing an entry writes the whole dictionary to the place it was read from, down to a member:
    the induction is on the place. -/
theorem writePlace_flows (node : Node) {place : Place}
    (hp : D.Knows m.store place) (hv : D.Knows m.store value) :
    D.Flows any m (writePlace r node place value) (writePlace r' node place value) := by
  induction place generalizing m value with
  | member composite name internal =>
    refine Flows.assuming fun hm _ => Flows.get_bind ?_
    have hfound := knows_lookup hm composite name .property internal
    split
    · exact Flows.pure knows_bool
    · rename_i resolved hresolved
      exact writeMember_flows hr node name (knows_option.mp hfound resolved hresolved) hv
  | entry base key ih =>
    obtain ⟨hbase, hkey⟩ := knows_entry.mp hp
    refine Flows.assuming fun hm _ => Flows.get_bind ?_
    have hread := knows_readPlace hm base
    split
    · rename_i entries hentries
      have hentries := knows_dictionary.mp (knows_option.mp hread _ hentries)
      exact ih hbase (knows_some.mpr (knows_dictionary.mpr (knows_insert hkey hv hentries)))
    · exact Flows.pure knows_bool

theorem assign_flows (node : Node) {place : Place}
    (hp : D.Knows m.store place) (hv : D.Knows m.store value) :
    D.Flows any m (assign r node place value) (assign r' node place value) := by
  refine (writePlace_flows hr node hp hv).bind fun written m₁ h₁ _ => ?_
  split
  · exact Flows.pure (hv.mono h₁)
  · exact Flows.reported

/-- A member is taken out of its composite, an entry out of its dictionary, which
    is written back. -/
theorem deletePlace_flows (node : Node) {place : Option Place} (hp : D.Knows m.store place) :
    D.Flows any m (deletePlace r node place) (deletePlace r' node place) := by
  refine Flows.assuming fun hm _ => ?_
  unfold deletePlace
  split
  · exact Flows.pure knows_bool
  · refine Flows.get_bind ?_
    split
    · split
      · exact Flows.pure knows_bool
      · refine (Flows.lift (hr.removeMember _ _)).bind ?_
        exact fun _ _ _ _ => Flows.pure knows_bool
    · exact Flows.pure knows_bool
  · rename_i base key
    obtain ⟨hbase, hkey⟩ := knows_entry.mp (knows_some.mp hp)
    refine Flows.get_bind ?_
    have hread := knows_readPlace hm base
    split
    · rename_i entries hentries
      have hentries := knows_dictionary.mp (knows_option.mp hread _ hentries)
      split
      · exact writePlace_flows hr node hbase
          (knows_some.mpr (knows_dictionary.mpr (knows_remove hentries key)))
      · exact Flows.pure knows_bool
    · exact Flows.pure knows_bool

/-- Deleting warns of what cannot be deleted, and gives nil. -/
theorem deleteExpression_flows (node : Node) (value : Option Node) (hs : D.known m.store scope) :
    D.Flows any m (deleteExpression r node value scope) (deleteExpression r' node value scope) := by
  have hdelete : ∀ (m₁ : Machine) (place : Option Place), D.Knows m₁.store place → D.Flows any m₁
      (do
        if !(← deletePlace r node place) then report .warning (some node) notDeletable
        return none)
      (do
        if !(← deletePlace r' node place) then report .warning (some node) notDeletable
        return (none : Option Value)) := by
    intro m₁ place hplace
    refine (deletePlace_flows hr node hplace).bind fun deleted m₂ _ _ => ?_
    split
    · exact Flows.reported
    · exact Flows.pure knows_none
  unfold deleteExpression
  cases value with
  | some value => exact (placeOf_flows hr value hs).bind fun place m₁ _ hp => hdelete m₁ place hp
  | none => exact (Flows.pure knows_none).bind fun place m₁ _ hp => hdelete m₁ place hp

end Places

/-! ## Operators -/

section Operators

/-- An operator's function is looked up like any member, by what it is called with. -/
theorem operatorFunction_keeps (symbol : String) (arguments : List Argument) :
    D.Keeps m (operatorFunction scope symbol arguments) (operatorFunction scope symbol arguments) :=
  Keeps.assuming fun hm => Keeps.get_bind
    (Keeps.pure (knows_matching (knows_lookup hm scope symbol (.call arguments) false)))

variable (hr : D.Minds r r')

include hr

variable (node : Node)

/-- An operator is called from the scope it is written in, on no object. -/
theorem callOperator_flows {function : Handle} {arguments : List Argument}
    (hf : D.known m.store function) (hargs : D.Knows m.store arguments) :
    D.Flows any m (callOperator r node scope function arguments)
      (callOperator r' node scope function arguments) := by
  refine Flows.assuming fun hm _ => Flows.get_bind ?_
  refine (hr.call (knows_call.mpr ⟨hf, hargs, knows_none, knows_callerOf hm scope⟩)).weaken ?_
  exact fun _ _ => trivial

/-- A function declared for the operator comes before the arithmetic built in. -/
theorem applyBinary_flows (symbol : String) {a b : Option Value} (ha : D.Knows m.store a)
    (hb : D.Knows m.store b) :
    D.Flows any m (applyBinary r node symbol a b scope) (applyBinary r' node symbol a b scope) := by
  unfold applyBinary
  refine (Flows.lift (operatorFunction_keeps symbol _)).bind fun function m₁ h₁ hf => ?_
  have hargs : D.Knows m₁.store [({ value := a } : Argument), { value := b }] :=
    knows_cons.mpr ⟨ha.mono h₁, knows_cons.mpr ⟨hb.mono h₁, knows_nil⟩⟩
  cases function with
  | some function => exact callOperator_flows hr node (knows_handle.mp (knows_some.mp hf)) hargs
  | none =>
    dsimp only
    split
    · rename_i value hvalue
      exact Flows.pure (knows_some.mpr (knows_of_held_eq_nil (Arithmetic.held_of_binary hvalue)))
    · exact Flows.reported

/-- An operator without a function leaves its operand as it is. -/
theorem applyUnary_flows (symbol : String) (hv : D.Knows m.store value) :
    D.Flows any m (applyUnary r node symbol value scope)
      (applyUnary r' node symbol value scope) := by
  unfold applyUnary
  split
  · exact Flows.pure knows_none
  · refine (Flows.lift (operatorFunction_keeps symbol _)).bind fun function m₁ h₁ hf => ?_
    have hargs : D.Knows m₁.store [({ value } : Argument)] := knows_cons.mpr ⟨hv.mono h₁, knows_nil⟩
    cases function with
    | some function => exact callOperator_flows hr node (knows_handle.mp (knows_some.mp hf)) hargs
    | none => exact Flows.pure (hv.mono h₁)

/-- Only an operand is assigned to, and only if its place is there. -/
theorem assigned_flows (operation : Operation) (hs : D.known m.store scope) :
    D.Flows any m (assigned r scope operation) (assigned r' scope operation) := by
  cases operation with
  | operand target =>
    refine (placeOf_flows hr target hs).bind fun place m₁ _ hplace => Flows.get_bind ?_
    exact Flows.pure hplace.filter
  | join symbol left right => exact Flows.pure knows_none

/-- By induction on how the operands are joined.  Assignment finds its place before it computes the
    value, and `&&` and `||` may leave their right side out. -/
theorem operate_flows (operation : Operation) (hs : D.known m.store scope) :
    D.Flows any m (operate r node scope operation) (operate r' node scope operation) := by
  induction operation generalizing m with
  | operand operand => exact hr.eval operand hs
  | join symbol left right ihl ihr =>
    unfold operate
    split
    · refine (assigned_flows hr left hs).bind fun place m₁ h₁ hplace => ?_
      cases place with
      | none => exact Flows.reported
      | some place =>
        refine (ihr (D.known_mono h₁ hs)).bind fun value m₂ h₂ hvalue => ?_
        have hplace : D.Knows m₂.store place := (knows_some.mp hplace).mono h₂
        split
        · exact assign_flows hr node hplace hvalue
        · refine Flows.assuming fun hm₂ _ => Flows.get_bind ?_
          refine (applyBinary_flows hr node _ (knows_readPlace hm₂ place) hvalue).bind ?_
          exact fun result m₃ h₃ hresult => assign_flows hr node (hplace.mono h₃) hresult
    split
    · refine (ihl hs).bind fun a m₁ h₁ _ => ?_
      split
      · exact Flows.pure (knows_some.mpr knows_boolean)
      · refine (ihr (D.known_mono h₁ hs)).bind ?_
        exact fun _ _ _ _ => Flows.pure (knows_some.mpr knows_boolean)
    split
    · refine (ihl hs).bind fun a m₁ h₁ _ => ?_
      split
      · exact Flows.pure (knows_some.mpr knows_boolean)
      · refine (ihr (D.known_mono h₁ hs)).bind ?_
        exact fun _ _ _ _ => Flows.pure (knows_some.mpr knows_boolean)
    · refine (ihl hs).bind fun a m₁ h₁ ha => ?_
      refine (ihr (D.known_mono h₁ hs)).bind fun b m₂ h₂ hb => ?_
      exact applyBinary_flows hr node symbol (ha.mono h₂) hb

/-- A sequence is joined by precedence and then computed. -/
theorem sequence_flows (values : List Node) (hs : D.known m.store scope) :
    D.Flows any m (sequence r node values scope) (sequence r' node values scope) := by
  refine Flows.get_bind ?_
  split
  · exact Flows.pure knows_none
  · exact operate_flows hr node _ hs
  · exact Flows.reported

theorem stepOperand_flows (symbol : String) (hv : D.Knows m.store value) :
    D.Flows any m (stepOperand r node symbol value scope)
      (stepOperand r' node symbol value scope) := by
  unfold stepOperand
  split
  · rename_i v hstep
    exact Flows.pure (knows_some.mpr (knows_of_held_eq_nil (Arithmetic.held_of_step hstep)))
  · exact applyUnary_flows hr node symbol hv
  · exact Flows.reported

/-- What was counted is written to the operand's place, if it has one. -/
theorem writeBack_flows (operand : Option Node)
    (hs : D.known m.store scope) (hv : D.Knows m.store value) :
    D.Flows any m (writeBack r node operand value scope)
      (writeBack r' node operand value scope) := by
  unfold writeBack
  cases operand with
  | none => exact Flows.pure knows_unit
  | some operand =>
    refine (placeOf_flows hr operand hs).bind fun place m₁ h₁ hplace => ?_
    cases place with
    | none => exact Flows.pure knows_unit
    | some place =>
      refine (writePlace_flows hr node (knows_some.mp hplace) (hv.mono h₁)).bind ?_
      exact fun _ _ _ _ => Flows.pure knows_unit

/-- A value is counted up or down and written back; what is given is a value known all along. -/
theorem stepped_flows (symbol : String) (operand : Option Node)
    (hs : D.known m.store scope) (hv : D.Knows m.store value) (given : Option Value → Option Value)
    (hgiven : ∀ s v, D.leads m.store s → D.Knows s v → D.Knows s (given v)) :
    D.Flows any m
      (do
        let stepped ← stepOperand r node symbol value scope
        writeBack r node operand stepped scope
        return given stepped)
      (do
        let stepped ← stepOperand r' node symbol value scope
        writeBack r' node operand stepped scope
        return given stepped) := by
  refine (stepOperand_flows hr node symbol hv).bind fun stepped m₁ h₁ hstepped => ?_
  refine (writeBack_flows hr node operand (D.known_mono h₁ hs) hstepped).bind ?_
  exact fun _ m₂ h₂ _ => Flows.pure (hgiven _ _ (D.leads_trans h₁ h₂) (hstepped.mono h₂))

/-- An operator in front gives the value after counting. -/
theorem prefixed_flows (operator operand : Option Node) (hs : D.known m.store scope) :
    D.Flows any m (prefixed r node operator operand scope)
      (prefixed r' node operator operand scope) := by
  unfold prefixed
  refine (evalChild_flows hr operand hs).bind fun value m₁ h₁ hvalue => ?_
  split
  · exact Flows.pure (knows_some.mpr knows_boolean)
  split
  · exact Flows.pure hvalue
  split
  · split
    · split
      · rename_i negated hfit
        exact Flows.pure (knows_some.mpr (knows_of_held_eq_nil (Arithmetic.held_of_fitting hfit)))
      · exact Flows.reported
    · exact Flows.pure (knows_some.mpr knows_float)
    · exact applyUnary_flows hr node _ hvalue
  split
  · exact stepped_flows hr node _ operand (D.known_mono h₁ hs) hvalue id fun _ _ _ h => h
  · exact applyUnary_flows hr node _ hvalue

/-- An operator behind gives the value before counting, known since before the write. -/
theorem postfixed_flows (operator operand : Option Node) (hs : D.known m.store scope) :
    D.Flows any m (postfixed r node operator operand scope)
      (postfixed r' node operator operand scope) := by
  unfold postfixed
  refine (evalChild_flows hr operand hs).bind fun value m₁ h₁ hvalue => ?_
  split
  · exact stepped_flows hr node _ operand (D.known_mono h₁ hs) hvalue (fun _ => value)
      fun _ _ h _ => hvalue.mono h
  · exact applyUnary_flows hr node _ hvalue

end Operators

/-! ## Expressions -/

section Expressions

theorem knows_integerValue (literal : Literal) : D.Knows s literal.integerValue := by
  unfold Literal.integerValue
  split
  · exact knows_some.mpr knows_integer
  · exact knows_some.mpr knows_float
  · exact knows_some.mpr knows_integer
  · split
    · exact knows_some.mpr knows_integer
    · rw [knows_option]
      intro v hv
      obtain ⟨x, _, rfl⟩ := Option.map_eq_some_iff.mp hv
      exact knows_float

theorem knows_floatValue (literal : Literal) : D.Knows s literal.floatValue := by
  unfold Literal.floatValue
  split
  · exact knows_some.mpr knows_float
  · exact knows_some.mpr knows_float
  · exact knows_some.mpr knows_float
  · rw [knows_option]
    intro v hv
    obtain ⟨x, _, rfl⟩ := Option.map_eq_some_iff.mp hv
    exact knows_float

/-- Literals are truth values and numbers. -/
theorem knows_literal (literal : Literal) (sort : LiteralSort) :
    D.Knows s (literal.value sort) := by
  cases sort with
  | boolean => exact knows_some.mpr knows_boolean
  | integer => exact knows_integerValue literal
  | float => exact knows_floatValue literal

theorem knows_characterAt (text : String) (index : Option Value) :
    D.Knows s (characterAt text index) := by
  unfold characterAt
  split
  · split
    · exact knows_none
    · rw [knows_option]
      intro v hv
      obtain ⟨c, _, rfl⟩ := Option.map_eq_some_iff.mp hv
      exact knows_text
  · exact knows_none

/-- The value of a name is the value of the member found, and so known. -/
theorem identifier_keeps (node : Node) (name : String) :
    D.Keeps m (identifier node name scope) (identifier node name scope) := by
  refine Keeps.assuming fun hm => Keeps.get_bind ?_
  have hfound := knows_lookup hm scope name .property false
  split
  · rename_i resolved hresolved
    have hoverload := (knows_resolved.mp (knows_option.mp hfound resolved hresolved)).2.1
    exact Keeps.pure (knows_overload.mp hoverload).2.1
  · exact Keeps.bind Keeps.report fun _ _ _ => Keeps.pure knows_none

variable (hr : D.Minds r r')

include hr

/-- A plan is carried out on an object that is known. -/
theorem invoke_flows (node : Node) {plan : Plan} {arguments : List Argument}
    {generics : List TypeTree} (hplan : D.Knows m.store plan) (hargs : D.Knows m.store arguments)
    (hgenerics : D.Knows m.store generics) :
    D.Flows any m (invoke r node scope plan arguments generics)
      (invoke r' node scope plan arguments generics) := by
  obtain ⟨hfunction, hself⟩ := knows_plan.mp hplan
  unfold invoke
  split
  · exact Flows.reported
  · rename_i function hf
    have hfunction := knows_handle.mp (knows_option.mp hfunction function hf)
    refine Flows.assuming fun hm _ => Flows.get_bind ?_
    have hcaller := knows_callerOf hm scope
    -- whichever object it is, the call goes the same way
    have hcall : ∀ m₁ (levels : Option Handle), D.leads m.store m₁.store → D.Knows m₁.store levels →
        D.Flows any m₁
          (r.call ⟨some node, function, arguments, levels, m.callerOf scope⟩)
          (r'.call ⟨some node, function, arguments, levels, m.callerOf scope⟩) := by
      intro m₁ levels h₁ hlevels
      refine (hr.call (knows_call.mpr ⟨?_, ?_, hlevels, ?_⟩)).weaken fun _ _ => trivial
      · exact D.known_mono h₁ hfunction
      · exact hargs.mono h₁
      · exact hcaller.mono h₁
    dsimp only
    split
    · rename_i classHandle _ hc
      have hclass := knows_handle.mp (knows_option.mp hself classHandle hc)
      refine (Flows.lift (hr.initializerObject scope hclass hgenerics)).bind ?_
      exact fun levels m₁ h₁ hlevels => hcall m₁ levels h₁ hlevels
    · refine (Flows.pure knows_none).bind ?_
      exact fun levels m₁ h₁ hlevels => hcall m₁ levels h₁ hlevels

/-- The parts of a text are computed in order; what is put together is a text. -/
theorem stringSegments_flows (segments : List Node) (hs : D.known m.store scope) :
    D.Flows any m (stringSegments r scope segments) (stringSegments r' scope segments) := by
  induction segments generalizing m with
  | nil => exact Flows.pure knows_string
  | cons segment rest ih =>
    have hrest : ∀ (text : String) (m₁ : Machine), D.leads m.store m₁.store → D.Flows any m₁
        (do return text ++ (← stringSegments r scope rest))
        (do return text ++ (← stringSegments r' scope rest)) := fun text m₁ h₁ =>
      (ih (D.known_mono h₁ hs)).bind fun _ _ _ _ => Flows.pure knows_string
    unfold stringSegments
    split
    · exact (Flows.pure knows_string).bind fun text m₁ h₁ _ => hrest text m₁ h₁
    · refine (hr.eval segment hs).bind fun value m₁ h₁ _ => Flows.get_bind ?_
      refine (Flows.pure knows_string).bind fun text m₂ h₂ _ => ?_
      exact hrest text m₂ (D.leads_trans h₁ h₂)

/-- A literal is wrapped by calling what has the name, and stays as it is if that is nothing. -/
theorem wrapLiteral_flows (node : Node) (name : String) {literal : Value}
    (hs : D.known m.store scope) (hl : D.Knows m.store literal) :
    D.Flows any m (wrapLiteral r node name literal scope)
      (wrapLiteral r' node name literal scope) := by
  refine Flows.assuming fun hm _ => Flows.get_bind ?_
  have hcallee : D.Knows m.store (Callee.member (some scope) name false) := knows_handle.mpr hs
  have hplan := knows_planned hm hcallee [{ value := some literal }]
  dsimp only
  split
  · exact Flows.pure (knows_some.mpr hl)
  · exact invoke_flows hr node hplan (knows_cons.mpr ⟨hl, knows_nil⟩) knows_nil

theorem elements_flows (nodes : List Node) (hs : D.known m.store scope) :
    D.Flows any m (elements r scope nodes) (elements r' scope nodes) := by
  induction nodes generalizing m with
  | nil => exact Flows.pure knows_nil
  | cons node rest ih =>
    refine (hr.eval node hs).bind fun value m₁ h₁ hvalue => ?_
    refine (ih (D.known_mono h₁ hs)).bind fun others m₂ h₂ hothers => Flows.pure ?_
    split
    · exact knows_cons.mpr ⟨hvalue.mono h₂, hothers⟩
    · exact hothers

/-- Entries are added in order to those read so far. -/
theorem dictionaryEntries_flows (nodes : List Node) {read : Dictionary} (hs : D.known m.store scope)
    (hread : D.Knows m.store read) :
    D.Flows any m (dictionaryEntries r scope nodes read)
      (dictionaryEntries r' scope nodes read) := by
  induction nodes generalizing m read with
  | nil => exact Flows.pure hread
  | cons node rest ih =>
    unfold dictionaryEntries
    split
    · refine (evalChild_flows hr _ hs).bind fun key m₁ h₁ hkey => ?_
      have hs := D.known_mono h₁ hs
      refine (evalChild_flows hr _ hs).bind fun value m₂ h₂ hvalue => ?_
      refine ih (D.known_mono h₂ hs) ?_
      have hread := hread.mono (D.leads_trans h₁ h₂)
      cases key with
      | none => exact hread
      | some key => exact knows_insert ((knows_some.mp hkey).mono h₂) hvalue hread
    · exact ih hs hread

theorem argumentList_flows (nodes : List Node) (hs : D.known m.store scope) :
    D.Flows any m (argumentList r scope nodes) (argumentList r' scope nodes) := by
  induction nodes generalizing m with
  | nil => exact Flows.pure knows_nil
  | cons node rest ih =>
    have hargument : D.Flows any m (argument r scope node) (argument r' scope node) := by
      unfold argument
      split
      · exact (evalChild_flows hr _ hs).bind fun value _ _ hvalue => Flows.pure hvalue
      · exact (hr.eval _ hs).bind fun value _ _ hvalue => Flows.pure hvalue
    refine Flows.bind hargument fun first m₁ h₁ hfirst => ?_
    refine (ih (D.known_mono h₁ hs)).bind fun others m₂ h₂ hothers => ?_
    exact Flows.pure (knows_cons.mpr ⟨hfirst.mono h₂, hothers⟩)

/-- A closure behind a call is its last argument. -/
theorem arguments_flows (nodes : List Node) (closure : Option Node) (hs : D.known m.store scope) :
    D.Flows any m (arguments r nodes closure scope) (arguments r' nodes closure scope) := by
  refine (argumentList_flows hr nodes hs).bind fun given m₁ h₁ hgiven => ?_
  cases closure with
  | none => exact Flows.pure hgiven
  | some closure =>
    refine (hr.eval closure (D.known_mono h₁ hs)).bind fun value m₂ h₂ hvalue => ?_
    exact Flows.pure (knows_append.mpr ⟨hgiven.mono h₂, knows_cons.mpr ⟨hvalue, knows_nil⟩⟩)

/-- What is called is a name in the scope, a member of a composite, or a value. -/
theorem callee_flows (node : Node) (hs : D.known m.store scope) :
    D.Flows any m (callee r node scope) (callee r' node scope) := by
  unfold callee
  split
  · exact Flows.pure (knows_handle.mpr hs)
  · refine (evalLinkOf_flows hr _ hs).bind fun base m₁ h₁ _ => ?_
    refine (memberName_flows hr _ (D.known_mono h₁ hs)).bind fun name m₂ _ _ => ?_
    cases name with
    | none => exact Flows.pure knows_none
    | some name => exact Flows.get_bind (Flows.pure knows_compositeOf)
  · exact (hr.evalLink node hs).bind fun value _ _ hvalue => Flows.pure hvalue

/-- A member is looked up on the composite in front of it. -/
theorem chain_flows (node : Node) (composite member : Option Node) (hs : D.known m.store scope) :
    D.Flows any m (chain r node composite member scope) (chain r' node composite member scope) := by
  refine (evalLinkOf_flows hr composite hs).bind fun base m₁ h₁ _ => Flows.get_bind ?_
  split
  · exact Flows.reported
  · refine (memberName_flows hr member (D.known_mono h₁ hs)).bind fun name m₂ _ _ => ?_
    cases name with
    | none => exact Flows.pure knows_none
    | some name =>
      refine Flows.assuming fun hm₂ _ =>
        Flows.get_bind (Flows.pure (Knows.bind fun found hfound => ?_))
      have hknown := knows_option.mp (knows_lookup hm₂ _ name .property true) found hfound
      exact (knows_overload.mp (knows_resolved.mp hknown).2.1).2.1

/-- Types, arguments and what is called are computed in this order; the plan made of them is known,
    and `invoke` carries it out. -/
theorem callExpression_flows (node : Node) (called : Option Node)
    (genericArguments argumentNodes : List Node)
    (closure : Option Node) (hs : D.known m.store scope) :
    D.Flows any m (callExpression r node called genericArguments argumentNodes closure scope)
      (callExpression r' node called genericArguments argumentNodes closure scope) := by
  unfold callExpression
  refine (Flows.mapM fun argument _ m' _ => Flows.lift (typeOf_keeps _)).bind
    fun generics m₁ h₁ hgenerics => ?_
  have hs₁ := D.known_mono h₁ hs
  refine (arguments_flows hr argumentNodes closure hs₁).bind fun arguments m₂ h₂ hargs => ?_
  cases called
  case' some called => refine (callee_flows hr called (D.known_mono h₂ hs₁)).bind ?_
  case' none => refine Flows.bind (Flows.pure (knows_none (α := Value))) ?_
  all_goals
    intro callee m₃ h₃ hcallee
    dsimp only
    split
    · exact Flows.reported
    · refine Flows.assuming fun hm₃ _ => Flows.get_bind ?_
      have hgenerics := hgenerics.mono (D.leads_trans h₂ h₃)
      exact invoke_flows hr node (knows_planned hm₃ hcallee arguments) (hargs.mono h₃) hgenerics

/-- A dictionary gives its entry and a text its character; on a composite its member
    `subscript` is called. -/
theorem subscript_flows (node : Node) (composite : Option Node) (argumentNodes : List Node)
    (closure : Option Node) (hs : D.known m.store scope) :
    D.Flows any m (subscript r node composite argumentNodes closure scope)
      (subscript r' node composite argumentNodes closure scope) := by
  unfold subscript
  refine (evalLinkOf_flows hr composite hs).bind fun base m₁ h₁ hbase => ?_
  refine (arguments_flows hr argumentNodes closure (D.known_mono h₁ hs)).bind ?_
  intro arguments m₂ h₂ hargs
  have hbase := hbase.mono h₂
  split
  · rename_i entries
    exact Flows.pure (Knows.bind fun key _ =>
      knows_get? (knows_dictionary.mp (knows_some.mp hbase)) key)
  · exact Flows.pure (knows_characterAt _ _)
  · refine Flows.assuming fun hm₂ _ => Flows.get_bind ?_
    split
    · exact Flows.pure knows_none
    · split
      · rename_i function hfound
        have hmatch := fun found =>
          knows_matching (knows_lookup hm₂ found "subscript" (.call arguments) true)
        have hfunction := knows_handle.mp (knows_option.mp (hmatch _) function hfound)
        refine (hr.call
          (knows_call.mpr ⟨hfunction, hargs, knows_none, knows_callerOf hm₂ scope⟩)).weaken ?_
        exact fun _ _ => trivial
      · exact Flows.reported

/-- An inout argument is a pointer to the composite its value refers to. -/
theorem inoutExpression_flows (node : Node) (value : Option Node) (hs : D.known m.store scope) :
    D.Flows any m (inoutExpression r node value scope) (inoutExpression r' node value scope) := by
  refine (evalChild_flows hr value hs).bind fun value m₁ _ hvalue => ?_
  have hhandle : D.Knows m₁.store (value.bind Value.handle?) :=
    Knows.bind fun v hv => (knows_option.mp hvalue v hv).handle?
  split
  · rename_i h hh
    exact Flows.pure (knows_pointer.mpr (knows_handle.mp (knows_option.mp hhandle h hh)))
  · exact Flows.reported

/-- With `nillable` a throw becomes nil; whatever else is under way goes on. -/
theorem tryExpression_flows (nillable : Bool) (value : Option Node) (hs : D.known m.store scope) :
    D.Flows any m (tryExpression r nillable value scope)
      (tryExpression r' nillable value scope) := by
  intro hm hopen
  refine (evalChild_flows hr value hs hm hopen).bind ?_
  intro o m₁ h₁
  cases o with
  | ok value => exact Agree.pure h₁
  | error u =>
    refine Agree.get_bind ?_
    split
    · exact resumed_agrees hr h₁ fun _ => knows_none
    · exact Agree.pure h₁

/-- A link that is nil ends the chain it stands in. -/
theorem nillableLink_flows (value : Option Node) (hs : D.known m.store scope) :
    D.Flows any m (nillableLink r value scope) (nillableLink r' value scope) := by
  refine (evalLinkOf_flows hr value hs).bind fun value m₁ _ hvalue => ?_
  split
  · exact transferred_flows hr knows_none (fun _ => rfl) trivial
  · exact Flows.pure hvalue

/-- Chains, calls, subscripts and nillables are links; every other form is evaluated. -/
theorem linkNow_flows (node : Node) (hs : D.known m.store scope) :
    D.Flows any m (linkNow r node scope) (linkNow r' node scope) := by
  unfold linkNow
  split
  · exact chain_flows hr node _ _ hs
  · exact callExpression_flows hr node _ _ _ _ hs
  · exact subscript_flows hr node _ _ _ hs
  · exact nillableLink_flows hr _ hs
  · exact hr.eval node hs

end Expressions

/-! ## Declarations -/

section Declarations

theorem knows_observerSignature (parameter : String) :
    D.Knows s (observerSignature parameter) :=
      knows_of_references_eq_nil (TypeTree.sound_observerSignature _) rfl

/-- The member of a function names it and nothing else. -/
theorem knows_functionMember {function : Handle} (modifiers : List String)
    (hf : D.known s function) : D.Knows s (functionMember function modifiers) :=
  knows_overload.mpr
    ⟨knows_of_references_eq_nil (TypeTree.sound_ofPredefined _) rfl,
      knows_reference.mpr hf, knows_nil⟩

variable (hr : D.Minds r r')

include hr

/-- Every observer declared becomes a function of the scope. -/
theorem observersIn_keeps (statements : List Node) (hs : D.known m.store scope) :
    D.Keeps m (observersIn r scope statements) (observersIn r' scope statements) := by
  induction statements generalizing m with
  | nil => exact Keeps.pure knows_nil
  | cons statement rest ih =>
    unfold observersIn
    dsimp only
    split
    · exact ih hs
    · refine (hr.createFunction _ _ (knows_handle.mpr hs)).bind fun function m₁ h₁ => ?_
      refine (hr.setType _ (knows_observerSignature _)).bind fun _ m₂ h₂ => ?_
      have h₁₂ := D.leads_trans h₁.leads h₂.leads
      refine (ih (D.known_mono h₁₂ hs)).bind fun others m₃ h₃ => Keeps.pure ?_
      refine knows_cons.mpr ⟨knows_observer.mpr ?_, h₃.knows⟩
      exact D.known_mono (D.leads_trans h₂.leads h₃.leads) (knows_handle.mp h₁.knows)

/-- A name is declared with the type written, after its value and its observers are there. -/
theorem declarator_flows (modifiers : List String) (node : Node) (hs : D.known m.store scope) :
    D.Flows any m (declarator r modifiers scope node) (declarator r' modifiers scope node) := by
  unfold declarator
  split
  · split
    · exact Flows.pure knows_unit
    · refine (Flows.lift (typeOf_keeps _)).bind fun type m₁ h₁ htype => ?_
      have hs := D.known_mono h₁ hs
      refine (evalChild_flows hr _ hs).bind fun value m₂ h₂ hvalue => ?_
      have hs := D.known_mono h₂ hs
      refine (Flows.lift (observersIn_keeps hr _ hs)).bind fun observers m₃ h₃ hobservers => ?_
      refine (Flows.lift (hr.setMember _ _ _ ?_)).bind fun _ _ _ _ => Flows.pure knows_unit
      exact knows_overload.mpr ⟨htype.mono (D.leads_trans h₂ h₃), hvalue.mono h₃, hobservers⟩
  · exact Flows.pure knows_unit

/-- A function of a known signature, declared as a member. -/
theorem declareFunction_keeps (name : String) (modifiers : List String) (statements : List Node)
    {type : TypeTree} (hs : D.known m.store scope) (ht : D.Knows m.store type) :
    D.Keeps m (declareFunction r scope name modifiers statements type)
      (declareFunction r' scope name modifiers statements type) := by
  refine (hr.createFunction _ _ (knows_handle.mpr hs)).bind fun function m₁ h₁ => ?_
  have hf := knows_handle.mp h₁.knows
  refine (hr.setType _ (ht.mono h₁.leads)).bind fun _ m₂ h₂ => ?_
  have hf := D.known_mono h₂.leads hf
  refine (hr.setMember _ _ _ (knows_functionMember modifiers hf)).bind fun _ m₃ h₃ => ?_
  exact Keeps.pure (knows_handle.mpr (D.known_mono h₃.leads hf))

/-- A function is created, typed and made a member before its static statements run in it. -/
theorem functionDeclaration_flows (parts : FunctionParts Node) (hs : D.known m.store scope) :
    D.Flows any m (functionDeclaration r parts scope) (functionDeclaration r' parts scope) := by
  unfold functionDeclaration
  refine Flows.store_bind ?_
  split
  · refine (Flows.lift (hr.createFunction _ _ (knows_handle.mpr hs))).bind
      fun function m₁ h₁ hf => ?_
    refine (Flows.lift (functionSignature_keeps _)).bind fun type m₂ h₂ htype => ?_
    refine (Flows.lift (hr.setType _ htype)).bind fun _ m₃ h₃ _ => ?_
    have hf := D.known_mono (D.leads_trans h₂ h₃) (knows_handle.mp hf)
    refine (Flows.lift (hr.setMember _ _ _ (knows_functionMember _ hf))).bind fun _ m₄ h₄ _ => ?_
    refine (executeStatements_flows hr _ (D.known_mono h₄ hf)).bind ?_
    exact fun _ _ _ _ => Flows.pure knows_none
  · exact Flows.pure knows_none

theorem functionExpression_keeps (parts : FunctionParts Node) (hs : D.known m.store scope) :
    D.Keeps m (functionExpression r parts scope) (functionExpression r' parts scope) := by
  refine (hr.createFunction _ _ (knows_handle.mpr hs)).bind fun function m₁ h₁ => ?_
  refine (functionSignature_keeps _).bind fun type m₂ h₂ => ?_
  refine (hr.setType _ h₂.knows).bind fun _ m₃ h₃ => Keeps.pure ?_
  exact knows_reference.mpr
    (D.known_mono (D.leads_trans h₂.leads h₃.leads) (knows_handle.mp h₁.knows))

/-- The signature is adjusted without touching its layout or its references. -/
theorem initializerDeclaration_keeps (modifiers : List String) (nillable : Bool)
    (signature body : Option Node) (hs : D.known m.store scope) :
    D.Keeps m (initializerDeclaration r modifiers nillable signature body scope)
      (initializerDeclaration r' modifiers nillable signature body scope) := by
  refine (functionSignature_keeps _).bind fun type m₁ h₁ => ?_
  refine (declareFunction_keeps hr _ _ _ (D.known_mono h₁.leads hs) ?_).bind ?_
  · exact h₁.knows.adjust_same _ (fun _ => rfl) (fun _ => rfl) (fun _ _ => rfl) fun _ => rfl
  · exact fun _ _ _ => Keeps.pure knows_none

theorem deinitializerDeclaration_keeps (body : Option Node) (hs : D.known m.store scope) :
    D.Keeps m (deinitializerDeclaration r body scope) (deinitializerDeclaration r' body scope) := by
  refine (functionSignature_keeps _).bind fun type m₁ h₁ => ?_
  refine (declareFunction_keeps hr _ _ _ (D.known_mono h₁.leads hs) ?_).bind ?_
  · exact h₁.knows.adjust_same _ (fun _ => rfl) (fun _ => rfl) (fun _ _ => rfl) fun _ => rfl
  · exact fun _ _ _ => Keeps.pure knows_none

/-- A composite is made a member before its static statements run, so that they may name it.
    Nothing else knows the composite until then, which is why its scope may be entered. -/
theorem compositeDeclaration_flows (kind : DeclaredKind) (parts : CompositeParts Node)
    (anonymous : Bool) (hs : D.known m.store scope) :
    D.Flows any m (compositeDeclaration r kind parts scope anonymous)
      (compositeDeclaration r' kind parts scope anonymous) := by
  unfold compositeDeclaration
  dsimp only
  split
  · exact Flows.pure knows_none
  refine (hr.createDeclared _ _ _ hs).bind_flows fun composite m₁ h₁ hc hloose => ?_
  -- declared under a name or not, its static statements run in it
  have hstatics : ∀ (m₂ : Machine) (statics : List Node), D.leads m₁.store m₂.store → D.Flows any m₂
      (do
        let _ ← withScope r ⟨composite, none, none⟩ false (executeStatements r composite statics)
        return if anonymous then some (Value.reference composite) else none)
      (do
        let _ ← withScope r' ⟨composite, none, none⟩ false (executeStatements r' composite statics)
        return if anonymous then some (Value.reference composite) else none) := by
    intro m₂ statics h₂
    refine (hr.withScope _ false (.inr hloose) fun m₃ hm₃ => ?_).bind fun _ m₃ h₃ _ => Flows.pure ?_
    · exact executeStatements_flows hr _ (by rw [hm₃]; exact D.known_mono h₂ hc)
    · split
      · exact knows_reference.mpr (D.known_mono (D.leads_trans h₂ h₃) hc)
      · exact knows_none
  split
  · refine (Flows.lift (hr.setMember _ _ _ ?_)).bind fun _ m₂ h₂ _ => hstatics m₂ _ h₂
    exact knows_overload.mpr
      ⟨knows_of_references_eq_nil (TypeTree.sound_compositeSelf _) rfl,
        knows_reference.mpr hc, knows_nil⟩
  · exact hstatics m₁ _ (D.leads_refl _)

/-- Declaring an operator tells the scope how strongly it binds. -/
theorem operatorDeclaration_keeps (modifiers : List String) (operator body : Option Node) :
    D.Keeps m (operatorDeclaration modifiers operator body scope)
      (operatorDeclaration modifiers operator body scope) := by
  unfold operatorDeclaration
  dsimp only
  split
  · exact (hr.setOperator _ _ _).bind fun _ _ _ => Keeps.pure knows_none
  · exact Keeps.pure knows_none

/-- What is imported has to be a composite. -/
theorem importDeclaration_flows (node : Node) (value : Option Node) (hs : D.known m.store scope) :
    D.Flows any m (importDeclaration r node value scope)
      (importDeclaration r' node value scope) := by
  refine (evalChild_flows hr value hs).bind fun imported m₁ _ _ => Flows.get_bind ?_
  have himported : D.Knows m₁.store (m₁.compositeOf imported) := knows_compositeOf
  split
  · exact Flows.reported
  · rename_i composite hc
    have hcomposite := knows_handle.mp (knows_option.mp himported composite hc)
    refine (Flows.lift (hr.setImport _ _ hcomposite)).bind ?_
    exact fun _ _ _ _ => Flows.pure knows_none

end Declarations

/-! ## Nodes -/

section Nodes

variable (hr : D.Minds r r')

include hr

/-- One case for each form of node; each is one of the lemmas above. -/
theorem evalNow_flows (node : Node) (hs : D.known m.store scope) :
    D.Flows any m (evalNow r node scope) (evalNow r' node scope) := by
  have hchild : ∀ child, D.Flows any m (evalChild r child scope) (evalChild r' child scope) :=
    fun child => evalChild_flows hr child hs
  have hlink : D.Flows any m (absorbNilUnwrap r (r.evalLink node scope))
      (absorbNilUnwrap r' (r'.evalLink node scope)) :=
      absorbNilUnwrap_flows hr (hr.evalLink node hs)
  unfold evalNow
  cases node.form with
  | module statements => exact executeStatements_flows hr statements hs
  | body statements => exact executeStatements_flows hr statements hs
  | identifier name => exact Flows.lift (identifier_keeps node name)
  | literal sort literal => exact Flows.pure (knows_literal literal sort)
  | nilLiteral => exact Flows.pure knows_none
  | stringLiteral segments =>
    refine (stringSegments_flows hr segments hs).bind ?_
    exact fun _ _ _ _ => Flows.pure (knows_some.mpr knows_text)
  | stringSegment text => exact Flows.pure (knows_some.mpr knows_text)
  | stringExpression value => exact hchild value
  | arrayLiteral values =>
    refine (elements_flows hr values hs).bind fun elements m₁ h₁ helements => ?_
    exact wrapLiteral_flows hr node _ (D.known_mono h₁ hs)
      (knows_dictionary.mpr (knows_ofValues helements))
  | dictionaryLiteral entries =>
    refine (dictionaryEntries_flows hr entries hs knows_nil).bind fun read m₁ h₁ hread => ?_
    exact wrapLiteral_flows hr node _ (D.known_mono h₁ hs) (knows_dictionary.mpr hread)
  | entry key value => exact hchild value
  | parenthesized value => exact hchild value
  | sequence values => exact sequence_flows hr node values hs
  | prefixed operator operand => exact prefixed_flows hr node operator operand hs
  | postfixed operator operand => exact postfixed_flows hr node operator operand hs
  | call callee genericArguments arguments closure => exact hlink
  | argument label value => exact hchild value
  | chain composite member => exact hlink
  | subscript composite genericArguments arguments closure => exact hlink
  | inoutExpression value => exact inoutExpression_flows hr node value hs
  | nillableExpression value => exact hlink
  | tryExpression nillable value => exact tryExpression_flows hr nillable value hs
  | deleteExpression value => exact deleteExpression_flows hr node value hs
  | typeExpression type =>
    refine (Flows.lift (typeOf_keeps type)).bind ?_
    exact fun type _ _ htype =>
      Flows.pure (knows_some.mpr (knows_typeValue.mpr (knows_type.mp htype).1))
  | functionExpression parts => exact Flows.lift (functionExpression_keeps hr parts hs)
  | compositeExpression kind parts => exact compositeDeclaration_flows hr kind parts true hs
  | variableDeclaration modifiers declarators =>
    refine (Flows.forM fun declared _ m' h' => ?_).bind fun _ _ _ _ => Flows.pure knows_none
    exact declarator_flows hr modifiers declared (D.known_mono h' hs)
  | functionDeclaration parts => exact functionDeclaration_flows hr parts hs
  | initializerDeclaration modifiers nillable signature body =>
    exact Flows.lift (initializerDeclaration_keeps hr modifiers nillable signature body hs)
  | deinitializerDeclaration body => exact Flows.lift (deinitializerDeclaration_keeps hr body hs)
  | compositeDeclaration kind parts => exact compositeDeclaration_flows hr kind parts false hs
  | operatorDeclaration modifiers operator body =>
    exact Flows.lift (operatorDeclaration_keeps hr modifiers operator body)
  | importDeclaration value => exact importDeclaration_flows hr node value hs
  | ifStatement condition consequence alternative =>
    exact ifStatement_flows hr condition consequence alternative hs
  | whileStatement condition body => exact whileStatement_flows hr condition body hs
  | returnStatement value => exact transfer_flows hr value (by decide) hs
  | throwStatement value => exact transfer_flows hr value (by decide) hs
  | breakStatement label => exact transfer_flows hr none (by decide) hs
  | continueStatement label => exact transfer_flows hr none (by decide) hs
  | _ => exact Flows.pure knows_none

omit hr

/-- Rules of depth 0 end every run, so that there is nothing to keep. -/
theorem obeys_zero : D.Obeys (rules 0) (rules 0) where
  budget := rfl
  eval _ _ _ := Flows.lift Keeps.exhausted
  evalLink _ _ _ := Flows.lift Keeps.exhausted
  call _ := Flows.lift Keeps.exhausted

/-- One level deeper it is the same, whatever destroying is there. -/
theorem Admits.obeys [D.Storewise] (ha : D.Admits r r') (ho : D.Obeys r r') {budget : Nat}
    {destroy destroy' : Handle → Run Unit} :
    D.Obeys ⟨budget, fun node scope => evalNow r node scope, fun node scope => linkNow r node scope,
        fun call => callNow r call, destroy⟩
      ⟨budget, fun node scope => evalNow r' node scope, fun node scope => linkNow r' node scope,
        fun call => callNow r' call, destroy'⟩ where
  budget := rfl
  eval node _ hs := evalNow_flows (ha.minds ho) node hs
  evalLink node _ hs := linkNow_flows (ha.minds ho) node hs
  call hcall := callNow_flows ha ho hcall

end Nodes

/-! ## Modules -/

section Modules

theorem declareNatives_keeps (hv : D.Serves r r') {global : Handle} (hg : D.known m.store global) :
    D.Keeps m (declareNatives r global) (declareNatives r' global) := by
  refine Keeps.forM fun native _ m₁ h₁ => ?_
  have hscope : D.Knows m₁.store (some global) := knows_handle.mpr (D.known_mono h₁ hg)
  refine (hv.createFunction _ _ hscope).bind fun function m₂ h₂ => ?_
  have hsignature : native.signature.references = [] := by cases native <;> rfl
  have hknown :=
    knows_of_references_eq_nil (D := D) (s := m₂.store) (TypeTree.sound_signature native) hsignature
  refine (hv.setType _ hknown).bind fun _ m₃ h₃ => ?_
  have hf := D.known_mono h₃.leads (knows_handle.mp h₂.knows)
  refine (hv.setMember _ _ _ ?_).bind fun _ _ _ => Keeps.pure knows_unit
  exact knows_overload.mpr
    ⟨knows_of_references_eq_nil (TypeTree.sound_ofPredefined _) rfl,
      knows_reference.mpr hf, knows_nil⟩

/-- A throw nothing caught is reported; nothing else happens. -/
theorem endsModule_keeps (node : Node) (transfer : Option Transfer) :
    D.Keeps m (endsModule node transfer) (endsModule node transfer) := by
  unfold endsModule
  split
  · exact Keeps.get_bind (Keeps.bind Keeps.report fun _ _ _ => Keeps.pure knows_bool)
  · exact Keeps.pure knows_bool
  · exact Keeps.pure knows_bool

variable [D.Storewise] (ha : D.Admits r r') (ho : D.Obeys r r')

include ha ho

/-- After each statement of a module no transfer is under way. -/
theorem moduleStatements_agrees {global : Handle} (nodes : List Node) (hm : D.Fits m)
    (hopen : IsOpen m.control) (hg : D.known m.store global) :
    Agree D.regime.watched m (moduleStatements r global nodes) (moduleStatements r' global nodes)
      fun a m' => D.Lands any m (.ok a) m' := by
  induction nodes generalizing m with
  | nil => exact Agree.pure (Lands.of_after (After.refl hm knows_unit) hm hopen)
  | cons node rest ih =>
    -- what a machine does that the statement left open again
    have hrest : ∀ m₁, D.Lands any m (.ok ()) m₁ →
        Agree D.regime.watched m₁ (moduleStatements r global rest) (moduleStatements r' global rest)
          fun a m' => D.Lands any m (.ok a) m' := fun m₁ h₁ =>
      (ih h₁.fits h₁.ends.1 (D.known_mono h₁.leads hg)).mono fun _ _ h => h₁.trans h
    refine (executeStatement_flows ha ho node false hg hm hopen).bind ?_
    intro o m₁ h₁
    cases o with
    | ok value =>
        exact hrest m₁ ⟨h₁.fits, h₁.leads, h₁.scopes, h₁.below, ⟨h₁.ends.1, knows_unit⟩, leads_free⟩
    | error u =>
      obtain ⟨k, hk, _⟩ := h₁.ends
      let taken : Machine := { m₁ with control := m₁.control.take.2 }
      have htaken : D.Fits taken := ⟨h₁.fits.holds, h₁.fits.frames_take, starts_free⟩
      refine Agree.step (n := taken) rfl ?_
      refine (endsModule_keeps node _ htaken).bind fun ends m₂ h₂ => ?_
      refine (collectTransfer_keeps ha _ (h₂.fits htaken)).bind fun _ m₃ h₃ => ?_
      have hlands : D.Lands any m (.ok ()) m₃ := by
        have h₃ := h₂.trans h₃
        refine ⟨h₃.fits htaken, D.leads_trans h₁.leads h₃.leads, h₃.scopes.trans h₁.scopes, ?_,
          ⟨?_, knows_unit⟩, leads_free⟩
        · rw [h₃.control]; exact tail_take.trans h₁.below
        · rw [h₃.control]; exact isOpen_take (frames_ne_nil_of_kind? hk)
      split
      · exact hrest m₃ hlands
      · exact Agree.pure hlands

/-- A module gives back the scopes and frames it was given. -/
theorem runModule_keeps (tree : Node) : D.Keeps m (runModule r tree) (runModule r' tree) := by
  intro hm
  have hrun : ∀ (m₁ : Machine) (global : Handle), D.After m global m₁ →
      Agree D.regime.watched m₁
        (do
          declareNatives r global
          pushScope ⟨global, none, none⟩
          pushFrame
          moduleStatements r global tree.statements
          let _ ← popFrame
          popScope r true)
        (do
          declareNatives r' global
          pushScope ⟨global, none, none⟩
          pushFrame
          moduleStatements r' global tree.statements
          let _ ← popFrame
          popScope r' true) (D.After m) := by
    intro m₁ global h₁
    have hm₁ := h₁.fits hm
    have hg := knows_handle.mp h₁.knows
    refine (declareNatives_keeps ha.toServes hg hm₁).bind fun _ m₂ h₂ => ?_
    have hm₂ := h₂.fits hm₁
    let entered : Machine := { m₂ with
      scopes := ⟨global, none, none⟩ :: m₂.scopes
      control := m₂.control.push }
    have hentered : D.Fits entered := ⟨hm₂.holds, hm₂.frames_push, starts_free⟩
    refine Agree.step (n := { m₂ with scopes := entered.scopes }) rfl ?_
    refine Agree.step (n := entered) rfl ?_
    refine (moduleStatements_agrees ha ho tree.statements hentered
      ⟨by simp [entered, Control.push], rfl⟩ (D.known_mono h₂.leads hg)).bind fun _ m₃ h₃ => ?_
    let left : Machine := { m₃ with control := m₃.control.pop.2 }
    have hleft : D.Fits left :=
      ⟨h₃.fits.holds, fun t ht => h₃.fits.frames t (List.mem_of_mem_tail ht), starts_free⟩
    refine Agree.step (n := left) rfl ?_
    refine (popScope_agrees ha true hleft).mono fun _ m₄ h₄ => ?_
    have hframes : m₃.control.frames.tail = m.control.frames := by
      rw [h₃.below, ← h₁.control, ← h₂.control]; rfl
    refine ⟨h₄.fits.holds, ?_, ?_, ?_, knows_unit, leads_free⟩
    · exact D.leads_trans h₁.leads (D.leads_trans h₂.leads (D.leads_trans h₃.leads h₄.leads))
    · rw [h₄.scopes, ← h₁.scopes, ← h₂.scopes]
      show m₃.scopes.tail = m₂.scopes
      rw [h₃.scopes]; rfl
    · rw [h₄.control]
      show (⟨m₃.control.frames.tail⟩ : Control) = m.control
      rw [hframes]
  unfold runModule
  refine Agree.get_bind ?_
  split
  · rename_i global hglobal
    have hg := D.known_there (Store.contains_of_handleAt? hglobal)
    exact (Agree.pure (After.refl hm (knows_handle.mpr hg))).bind fun _ m₁ h₁ => hrun m₁ _ h₁
  · exact (ha.createNamespace _ _ knows_none hm).bind fun _ m₁ h₁ => hrun m₁ _ h₁

end Modules

end CompositeGraph.Discipline
