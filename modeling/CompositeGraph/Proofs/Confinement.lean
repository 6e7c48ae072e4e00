/-
  CONFINEMENT of ends at nil.

  With nil where it must not be, a nillable link ends the chain that it is in: the flow unwinds with
  an end at nil under way, and the expression around the chain turns that into nil.  No expression
  does so for a chain that it takes as a place: what is assigned to, stepped or deleted.  There the
  end at nil gets out, and whatever unwinds it next takes it for a return.

    1. POSITIONS.   `Node.confined`: no place that is evaluated in the frame of a node has a
                    nillable link.
    2. SPARING.     `Spares x`: if `x` unwinds, then not with an end at nil.  The ways to put flows
                    together keep that.
    3. FORMS.       One lemma per form, with the rules one level deeper taken for granted.
    4. THE KNOT.    Confined nodes spare, at every depth.
-/
import CompositeGraph.Proofs.Stacks

namespace CompositeGraph

open Run

/-! ## Positions -/

/-- What a node is evaluated as. -/
inductive Position where
  | value
  /-- A link of a chain: its end at nil is the end of the chain. -/
  | link
  | place

/-- Whether a node is an operator that assigns to what stands before it. -/
def Node.assigns (node : Node) : Bool := (node.between?.map isAssignment).getD false

namespace Node

mutual

/-- Whether no end at nil can get out of a node: in a place there is no nillable link, unless it is
    in the frame of a function or in an expression that turns it into nil. -/
def confined (position : Position) : Node → Bool
  | .mk _ form =>
    match position, form with
    | .place, .chain composite member => confinedIn .link composite && confinedIn .value member
    | .place, .subscript composite _ arguments _ =>
        confinedIn .place composite && firstConfined arguments
    | .place, .parenthesized value => confinedIn .place value
    | .place, _ => true
    | .link, .chain composite member => confinedIn .link composite && confinedIn .value member
    | .link, .call callee _ arguments closure =>
      allConfined arguments && confinedIn .value closure && confinedIn .link callee
    | .link, .subscript composite _ arguments closure =>
      confinedIn .link composite && allConfined arguments && confinedIn .value closure
    | .link, .nillableExpression _ => false
    | _, .module statements => allConfined statements
    | _, .body statements => allConfined statements
    | _, .stringLiteral segments => allConfined segments
    | _, .stringExpression value => confinedIn .value value
    | _, .arrayLiteral values => allConfined values
    | _, .dictionaryLiteral entries => entriesConfined entries
    | _, .entry _ value => confinedIn .value value
    | _, .parenthesized value => confinedIn .value value
    | _, .sequence values => sequenceConfined values
    | _, .prefixed operator operand =>
      confinedIn .value operand && (!isStep (symbolOf operator) || confinedIn .place operand)
    | _, .postfixed operator operand =>
      confinedIn .value operand && (!isStep (symbolOf operator) || confinedIn .place operand)
    | _, .argument _ value => confinedIn .value value
    | _, .inoutExpression value => confinedIn .value value
    | _, .tryExpression _ value => confinedIn .value value
    | _, .deleteExpression value => confinedIn .place value
    | _, .compositeExpression kind ⟨_, _, _, _, body⟩ => bodyConfined kind.kind.instantiable body
    | _, .variableDeclaration _ declarators => declaratorsConfined declarators
    | _, .functionDeclaration ⟨_, _, _, body⟩ => bodyConfined true body
    | _, .compositeDeclaration kind ⟨_, _, _, _, body⟩ => bodyConfined kind.kind.instantiable body
    | _, .importDeclaration value => confinedIn .value value
    | _, .ifStatement condition consequence alternative =>
      confinedIn .value condition && confinedIn .value consequence && confinedIn .value alternative
    | _, .whileStatement condition body => confinedIn .value condition && confinedIn .value body
    | _, .returnStatement value => confinedIn .value value
    | _, .throwStatement value => confinedIn .value value
    | _, _ => true

def confinedIn (position : Position) : Option Node → Bool
  | none => true
  | some node => confined position node

def allConfined : List Node → Bool
  | [] => true
  | node :: rest => confined .value node && allConfined rest

def firstConfined : List Node → Bool
  | [] => true
  | node :: _ => confined .value node

/-- Operands are values, and those that are assigned to are places too. -/
def sequenceConfined : List Node → Bool
  | [] => true
  | [node] => confined .value node
  | node :: next :: rest =>
    confined .value node && (!next.assigns || confined .place node) &&
      sequenceConfined (next :: rest)

def entriesConfined : List Node → Bool
  | [] => true
  | .mk _ (.entry key value) :: rest =>
    confinedIn .value key && confinedIn .value value && entriesConfined rest
  | _ :: rest => entriesConfined rest

def declaratorsConfined : List Node → Bool
  | [] => true
  | .mk _ (.declarator _ _ value _) :: rest => confinedIn .value value && declaratorsConfined rest
  | _ :: rest => declaratorsConfined rest

/-- The statements of a body that run when it is declared; with `statics`, not all of them. -/
def bodyConfined (statics : Bool) : Option Node → Bool
  | some (.mk _ (.body statements)) => chosenConfined statics statements
  | some (.mk _ (.module statements)) => chosenConfined statics statements
  | _ => true

def chosenConfined (statics : Bool) : List Node → Bool
  | [] => true
  | node :: rest =>
    ((statics && !(node.isStatic || node.isFunctionDeclaration)) || confined .value node) &&
      chosenConfined statics rest

end

variable {nodes : List Node}

theorem allConfined_iff :
    allConfined nodes = true ↔ ∀ node ∈ nodes, node.confined .value = true := by
  induction nodes with
  | nil => simp [allConfined]
  | cons node rest ih =>
    rw [allConfined, Bool.and_eq_true_iff, ih]
    simp

theorem firstConfined_eq : firstConfined nodes = confinedIn .value nodes.head? := by
  cases nodes with
  | nil => rfl
  | cons node rest => rfl

/-- In a confined sequence the operands are confined, and those that are assigned to
    are confined as places. -/
theorem sequenceConfined_cons {node : Node} {rest : List Node}
    (h : sequenceConfined (node :: rest) = true) :
    node.confined .value = true ∧ sequenceConfined rest = true ∧
      ∀ next others, rest = next :: others → next.assigns = true → node.confined .place = true := by
  cases rest with
  | nil => exact ⟨h, rfl, fun _ _ h => absurd h.symm (List.cons_ne_nil _ _)⟩
  | cons next others =>
    obtain ⟨h, hrest⟩ := Bool.and_eq_true_iff.mp h
    obtain ⟨hvalue, hplace⟩ := Bool.and_eq_true_iff.mp h
    refine ⟨hvalue, hrest, ?_⟩
    rintro _ _ ⟨⟩ hassigns
    rw [hassigns] at hplace
    exact hplace

theorem chosenConfined_iff {statics : Bool} :
    chosenConfined statics nodes = true ↔
      ∀ node ∈ nodes, statics = true ∧ (node.isStatic || node.isFunctionDeclaration) = false ∨
        node.confined .value = true := by
  induction nodes with
  | nil => simp [chosenConfined]
  | cons node rest ih =>
    rw [chosenConfined, Bool.and_eq_true_iff, ih]
    simp

/-- Of a confined body, what runs at once is confined. -/
theorem confined_of_bodyConfined {statics : Bool} {body : Option Node}
    (h : bodyConfined statics body = true) :
    ∀ node ∈ bodyStatements body, statics = true ∧
      (node.isStatic || node.isFunctionDeclaration) = false ∨
      node.confined .value = true := by
  cases body with
  | none => exact fun _ h => absurd h List.not_mem_nil
  | some node =>
    obtain ⟨range, form⟩ := node
    cases form with
    | body statements => exact chosenConfined_iff.mp h
    | module statements => exact chosenConfined_iff.mp h
    | _ => exact fun _ h => absurd h List.not_mem_nil

/-- Static statements are among those a confined body answers for. -/
theorem confined_of_statics {body : Option Node} (h : bodyConfined true body = true) :
    ∀ node ∈ staticStatements (bodyStatements body), node.confined .value = true := by
  intro node hmem
  obtain ⟨hmem, hstatic⟩ := List.mem_filter.mp hmem
  rcases confined_of_bodyConfined h node hmem with ⟨_, hnot⟩ | hconfined
  · exact absurd (hnot.symm.trans hstatic) Bool.false_ne_true
  · exact hconfined

end Node

namespace Operation

/-- Operands are confined, and those that are assigned to are confined as places. -/
def Confined : Operation → Prop
  | .operand node => node.confined .value = true
  | .join symbol left right =>
    left.Confined ∧ right.Confined ∧
      (isAssignment symbol = true → ∀ node, left = .operand node → node.confined .place = true)

/-- Climbing a confined sequence gives a confined tree and leaves a confined rest. -/
theorem confined_of_climb (table : String → Int × Associativity) (fuel : Nat) :
    (∀ {minimum values operation rest}, climb table fuel minimum values = .ok (operation, rest) →
      Node.sequenceConfined values = true →
      (∀ o, operation = some o → o.Confined) ∧ Node.sequenceConfined rest = true) ∧
    (∀ {minimum left last values operation rest},
      extend table fuel minimum left last values = .ok (operation, rest) → left.Confined →
      Node.sequenceConfined values = true →
      (∀ node, left = .operand node → Node.sequenceConfined (node :: values) = true) →
      operation.Confined ∧ Node.sequenceConfined rest = true) := by
  induction fuel with
  | zero =>
    refine ⟨fun h hvalues => ?_, fun h hleft hvalues _ => ?_⟩
    · cases h
      exact ⟨fun o ho => absurd ho.symm (Option.some_ne_none o), hvalues⟩
    · cases h
      exact ⟨hleft, hvalues⟩
  | succ fuel ih =>
    obtain ⟨ihclimb, ihextend⟩ := ih
    refine ⟨fun {minimum values operation rest} h hvalues => ?_,
      fun {minimum left last values operation rest} h hleft hvalues hnext => ?_⟩
    · cases values with
      | nil =>
        cases h
        exact ⟨fun o ho => absurd ho.symm (Option.some_ne_none o), hvalues⟩
      | cons node others =>
        obtain ⟨hnode, hothers, _⟩ := Node.sequenceConfined_cons hvalues
        obtain ⟨⟨extended, left⟩, hextend, h⟩ := exists_of_bind_eq_ok h
        cases h
        obtain ⟨hextended, hrest⟩ :=
          ihextend hextend hnode hothers fun _ hsame => by cases hsame; exact hvalues
        refine ⟨?_, hrest⟩
        rintro _ ⟨⟩
        exact hextended
    · cases values with
      | nil =>
        cases h
        exact ⟨hleft, hvalues⟩
      | cons node others =>
        obtain ⟨_, hothers, _⟩ := Node.sequenceConfined_cons hvalues
        unfold extend at h
        split at h
        · cases h
          exact ⟨hleft, hvalues⟩
        · next symbol hsymbol =>
          dsimp only at h
          split at h
          · cases h
            exact ⟨hleft, hvalues⟩
          split at h
          · cases h
          · obtain ⟨⟨right, left'⟩, hclimb, h⟩ := exists_of_bind_eq_ok h
            obtain ⟨hright, hleft'⟩ := ihclimb hclimb hothers
            dsimp only at h
            split at h
            · cases h
              exact ⟨hleft, hleft'⟩
            · next right =>
              refine ihextend h ⟨hleft, hright right rfl, ?_⟩ hleft' ?_
              · intro hassigns target htarget
                refine (Node.sequenceConfined_cons (hnext target htarget)).2.2 node others rfl ?_
                rw [Node.assigns, hsymbol]
                exact hassigns
              · rintro _ ⟨⟩

/-- Joining operands by precedence neither adds nor drops any. -/
theorem confined_of_ofSequence {table : String → Int × Associativity} {values : List Node}
    {operation : Operation} (h : ofSequence table values = .ok (some operation))
    (hvalues : Node.sequenceConfined values = true) : operation.Confined := by
  unfold ofSequence at h
  cases hclimb : climb table (values.length + 2) Word.least values with
  | error symbol => rw [hclimb] at h; cases h
  | ok p =>
    rw [hclimb] at h
    exact ((confined_of_climb table _).1 hclimb hvalues).1 operation (Except.ok.inj h)

end Operation

/-! ## Sparing -/

/-- Whatever the run comes to from `m` on is so. -/
def Yields {α : Type} (m : Machine) (x : Run α) (Q : α → Machine → Prop) : Prop :=
  ∀ a m', x m = .ok (a, m') → Q a m'

namespace Yields

variable {α β : Type} {m : Machine} {x : Run α} {Q : α → Machine → Prop} {R : β → Machine → Prop}

theorem pure {a : α} (h : Q a m) : Yields m (Pure.pure a) Q := by
  intro b m' hb
  cases hb
  exact h

theorem bind {f : α → Run β} (hx : Yields m x Q) (hf : ∀ a m', Q a m' → Yields m' (f a) R) :
    Yields m (x >>= f) R := by
  intro b m' h
  change (x m >>= fun p => f p.1 p.2) = _ at h
  cases hr : x m with
  | error halt =>
    rw [hr] at h
    cases h
  | ok p =>
    rw [hr] at h
    exact hf p.1 p.2 (hx p.1 p.2 hr) b m' h

/-- A step of which nothing is told. -/
theorem any (x : Run α) : Yields m x fun _ _ => True := fun _ _ _ => trivial

theorem get_bind {f : Machine → Run β} (h : Yields m (f m) R) : Yields m (get >>= f) R := h

end Yields

/-- The flow did not unwind with an end at nil. -/
def Spared {α : Type} (outcome : Except Unwind α) (m : Machine) : Prop :=
  ∀ u, outcome = .error u → m.control.kind? ≠ some .nilUnwrap

theorem spared_ok {α : Type} {a : α} {m : Machine} : Spared (.ok a) m := by
  intro u h
  cases h

/-- What is spared is said of the control alone. -/
theorem Spared.of_control {α : Type} {outcome : Except Unwind α} {m m' : Machine}
    (h : Spared outcome m) (hc : m'.control = m.control) : Spared outcome m' := by
  intro u hu
  rw [hc]
  exact h u hu

/-- If the flow unwinds, then not with an end at nil. -/
def Spares {α : Type} (x : Flow α) : Prop := ∀ m, Yields m x.outcome Spared

namespace Spares

variable {α β : Type} {x : Flow α} {f : α → Flow β}

theorem pure (a : α) : Spares (Pure.pure a : Flow α) := fun _ => Yields.pure spared_ok

theorem bind (hx : Spares x) (hf : ∀ a, Spares (f a)) : Spares (x >>= f) := by
  intro m
  refine (hx m).bind fun outcome m₁ h => ?_
  cases outcome with
  | error u => exact Yields.pure fun v _ => h u rfl
  | ok a => exact hf a m₁

/-- A run within a flow does not unwind. -/
theorem lift (x : Run α) : Spares (liftM x : Flow α) := by
  intro m
  show Yields m (x >>= fun a => Pure.pure (.ok a)) Spared
  exact (Yields.any x).bind fun _ _ _ => Yields.pure spared_ok

theorem get_bind {f : Machine → Flow β} (hf : ∀ m, Spares (f m)) :
    Spares (get >>= f) := fun m => hf m m

theorem lift_bind (x : Run α) (hf : ∀ a, Spares (f a)) : Spares (liftM x >>= f) := (lift x).bind hf

theorem forM {γ : Type} {g : γ → Flow Unit} {l : List γ} (h : ∀ c ∈ l, Spares (g c)) :
    Spares (l.forM g) := by
  induction l with
  | nil => exact pure _
  | cons c l ih =>
    exact bind (h c List.mem_cons_self) fun _ => ih fun d hd => h d (List.mem_cons_of_mem c hd)

theorem mapM {γ : Type} {g : γ → Flow β} {l : List γ} (h : ∀ c ∈ l, Spares (g c)) :
    Spares (l.mapM g) := by
  induction l with
  | nil => exact pure _
  | cons c l ih =>
    rw [List.mapM_cons]
    refine bind (h c List.mem_cons_self) fun _ => ?_
    exact bind (ih fun d hd => h d (List.mem_cons_of_mem c hd)) fun _ => pure _

end Spares

/-! ## Forms -/

/-- What is asked of the rules one level deeper. -/
structure Confines (r : Rules) : Prop where
  eval : ∀ {node : Node} {scope : Handle}, node.confined .value = true → Spares (r.eval node scope)
  evalLink : ∀ {node : Node} {scope : Handle},
    node.confined .link = true → Spares (r.evalLink node scope)
  call : ∀ call : Call, Spares (r.call call)
  destroy : ∀ {m : Machine} (h : Handle), Discipline.bare.Keeps m (r.destroy h) (r.destroy h)

namespace Confines

open Discipline

variable {r : Rules} {scope : Handle} {α : Type} (hc : Confines r)

include hc

/-! ### Execution -/

/-- A transfer of another kind is put in the frame of an end at nil. -/
theorem transferred_spares {value : Option Value} {k : TransferKind} (hk : k ≠ .nilUnwrap) :
    Spares (do (setTransfer r value (some k) : Run Unit); Flow.unwind : Flow α) := by
  intro m
  have hset : Yields m (setTransfer r value (some k)) fun _ m' =>
    m'.control = (m.control.set value (some k)).2 :=
    fun a m' h =>
      ((setTransfer_agrees (admits_bare hc.destroy) (some k) (fits_bare m) knows_bare).post
      h).control
  refine Yields.bind
    (hset.bind (R := fun o m' => o = .ok () ∧ m'.control = (m.control.set value (some k)).2)
    fun _ _ h => Yields.pure ⟨rfl, h⟩) ?_
  rintro _ m' ⟨rfl, hcontrol⟩
  refine Yields.pure fun u _ => ?_
  rw [hcontrol]
  by_cases hframes : m.control.frames = []
  · rw [Control.set, hframes]
    simp [Control.kind?, Control.current?, hframes]
  · rw [kind?_set hframes]
    exact fun h => hk (Option.some.inj h)

theorem withScope_spares {body : Flow α} (hbody : Spares body) (scope : Scope) (collect : Bool) :
    Spares (withScope r scope collect body) := by
  intro m
  refine (Yields.any _).bind fun _ m₁ _ => ?_
  refine (hbody m₁).bind fun outcome m₂ h₂ => ?_
  have hpop : Yields m₂ (popScope r collect) fun _ m' => m'.control = m₂.control :=
    fun a m' h => ((popScope_agrees (admits_bare hc.destroy) collect (fits_bare m₂)).post h).control
  exact hpop.bind fun _ _ h => Yields.pure (h₂.of_control h)

/-- What is collected after a statement leaves the frames as they are. -/
theorem executeStatement_spares {node : Node} (hnode : node.confined .value = true) (tail : Bool) :
    Spares (executeStatement r node scope tail) := by
  intro m
  refine (Yields.any _).bind fun _ m₀ _ => ?_
  refine (hc.eval hnode m₀).bind fun outcome m₁ h₁ => ?_
  cases outcome with
  | ok value =>
    refine (Yields.any _).bind fun _ m₂ _ => (Yields.any _).bind fun _ m₃ _ => ?_
    exact (Yields.any _).bind fun _ m₄ _ => Yields.pure spared_ok
  | error u =>
    -- what is collected leaves the frames alone
    have hfrom : ∀ m₂ start, Yields m₂ (collectFrom r start) fun _ m' => m'.control = m₂.control :=
      fun m₂ start a m' h =>
        ((collectFrom_keeps (admits_bare hc.destroy) start (fits_bare m₂)).post h).control
    have htransfer : ∀ m₂ t, Yields m₂ (collectTransfer r t) fun _ m' => m'.control = m₂.control :=
      fun m₂ t a m' h =>
        ((collectTransfer_keeps (admits_bare hc.destroy) t (fits_bare m₂)).post h).control
    refine (Yields.pure (Q := fun _ m' => m' = m₁) rfl).bind fun displaced m₂ h₂ => ?_
    refine (hfrom m₂ _).bind fun _ m₃ h₃ =>
      (htransfer m₃ displaced).bind fun _ m₄ h₄ => Yields.pure ?_
    exact h₁.of_control (by rw [h₄, h₃, h₂])

theorem executeStatements_spares (hnodes : ∀ node ∈ nodes, node.confined .value = true) :
    Spares (executeStatements r scope nodes) := by
  induction nodes with
  | nil => exact Spares.pure _
  | cons node rest ih =>
    have hnode := hnodes node List.mem_cons_self
    cases rest with
    | nil => exact hc.executeStatement_spares hnode true
    | cons next rest =>
      refine (hc.executeStatement_spares hnode false).bind fun _ => ih fun other hother => ?_
      exact hnodes other (List.mem_cons_of_mem node hother)

omit hc in
/-- What absorbs an end at nil spares, whatever it is made of. -/
theorem absorbNilUnwrap_spares (flow : Flow (Option Value)) : Spares (absorbNilUnwrap r flow) := by
  intro m
  refine (Yields.any _).bind fun outcome m₁ _ => ?_
  cases outcome with
  | ok value => exact Yields.pure spared_ok
  | error u =>
    refine Yields.get_bind ?_
    split
    · exact (Yields.any _).bind fun _ _ _ => Yields.pure spared_ok
    · next hkind => exact Yields.pure fun _ _ => hkind

/-! ### Places -/

theorem evalChild_spares {node : Option Node} (h : Node.confinedIn .value node = true) :
    Spares (evalChild r node scope) := by
  cases node with
  | none => exact Spares.pure _
  | some node => exact hc.eval h

theorem evalLinkOf_spares {node : Option Node} (h : Node.confinedIn .link node = true) :
    Spares (evalLinkOf r node scope) := by
  cases node with
  | none => exact Spares.pure _
  | some node => exact hc.evalLink h

theorem memberName_spares {member : Option Node} (h : Node.confinedIn .value member = true) :
    Spares (memberName r member scope) := by
  unfold memberName
  cases member with
  | none => exact Spares.pure _
  | some node =>
    dsimp only
    split
    · exact Spares.pure _
    · refine (hc.eval h).bind fun value => ?_
      split
      · exact Spares.pure _
      · exact Spares.pure _

/-- A place without nillable link is named without an end at nil. -/
theorem placeOf_spares {node : Node} (h : node.confined .place = true) :
    Spares (placeOf r scope node) := by
  fun_induction placeOf r scope node with
  | case1 range name => exact Spares.pure _
  | case2 range composite member =>
    obtain ⟨hcomposite, hmember⟩ := Bool.and_eq_true_iff.mp h
    refine (hc.evalLinkOf_spares hcomposite).bind fun base => Spares.get_bind fun m => ?_
    split
    · exact Spares.pure _
    · exact (hc.memberName_spares hmember).bind fun _ => Spares.pure _
  | case3 range composite genericArguments arguments closure ih =>
    obtain ⟨hcomposite, hfirst⟩ := Bool.and_eq_true_iff.mp h
    refine (ih hcomposite).bind fun place => ?_
    cases place with
    | none => exact Spares.pure _
    | some base =>
      refine (hc.evalChild_spares ?_).bind fun _ => Spares.pure _
      rw [← Node.firstConfined_eq]
      exact hfirst
  | case4 range value ih => exact ih h
  | case5 node => exact Spares.pure _

variable (node : Node)

theorem runObservers_spares (observers : List Observer) (name : String) (value : Option Value) :
    Spares (runObservers r node observers name value) :=
  Spares.forM fun _ _ => (hc.call _).bind fun _ => Spares.pure _

theorem writePlace_spares (place : Place) (value : Option Value) :
    Spares (writePlace r node place value) := by
  induction place generalizing value with
  | member composite name internal =>
    refine Spares.get_bind fun m => ?_
    split
    · exact Spares.pure _
    · unfold writeMember
      split
      · exact Spares.pure _
      · refine (hc.runObservers_spares node _ _ value).bind fun _ => Spares.lift_bind _ fun _ => ?_
        exact (hc.runObservers_spares node _ _ _).bind fun _ => Spares.pure _
  | entry base key ih =>
    refine Spares.get_bind fun m => ?_
    split
    · exact ih _
    · exact Spares.pure _

theorem assign_spares (place : Place) (value : Option Value) :
    Spares (assign r node place value) := by
  refine (hc.writePlace_spares node place value).bind fun written => ?_
  split
  · exact Spares.pure _
  · exact Spares.lift_bind _ fun _ => Spares.pure _

theorem deletePlace_spares (place : Option Place) : Spares (deletePlace r node place) := by
  unfold deletePlace
  split
  · exact Spares.pure _
  · refine Spares.get_bind fun m => ?_
    split
    · split
      · exact Spares.pure _
      · exact Spares.lift_bind _ fun _ => Spares.pure _
    · exact Spares.pure _
  · refine Spares.get_bind fun m => ?_
    split
    · split
      · exact hc.writePlace_spares node _ _
      · exact Spares.pure _
    · exact Spares.pure _

variable {value : Option Node}

theorem deleteExpression_spares (h : Node.confinedIn .place value = true) :
    Spares (deleteExpression r node value scope) := by
  have hdelete : ∀ place, Spares (do
      if !(← deletePlace r node place) then report .warning (some node) notDeletable
      return (none : Option Value)) := by
    intro place
    refine (hc.deletePlace_spares node place).bind fun deleted => ?_
    split
    · exact Spares.lift_bind _ fun _ => Spares.pure _
    · exact Spares.pure _
  unfold deleteExpression
  cases value with
  | some value => exact (hc.placeOf_spares h).bind hdelete
  | none => exact (Spares.pure _).bind hdelete

/-! ### Operators -/

theorem applyBinary_spares (symbol : String) (a b : Option Value) :
    Spares (applyBinary r node symbol a b scope) := by
  refine Spares.lift_bind _ fun function => ?_
  cases function with
  | some function => exact Spares.get_bind fun _ => hc.call _
  | none =>
    dsimp only
    split
    · exact Spares.pure _
    · exact Spares.lift_bind _ fun _ => Spares.pure _

theorem applyUnary_spares (symbol : String) (value : Option Value) :
    Spares (applyUnary r node symbol value scope) := by
  unfold applyUnary
  split
  · exact Spares.pure _
  · refine Spares.lift_bind _ fun function => ?_
    cases function with
    | some function => exact Spares.get_bind fun _ => hc.call _
    | none => exact Spares.pure _

/-- By induction on how the operands are joined. -/
theorem operate_spares {operation : Operation} (h : operation.Confined) :
    Spares (operate r node scope operation) := by
  induction operation with
  | operand operand => exact hc.eval h
  | join symbol left right ihl ihr =>
    obtain ⟨hleft, hright, hplace⟩ := h
    unfold operate
    split
    · next hassigns =>
      -- what is assigned to is named, not evaluated
      have hassigned : Spares (assigned r scope left) := by
        cases left with
        | join _ _ _ => exact Spares.pure _
        | operand target =>
          refine (hc.placeOf_spares (hplace hassigns target rfl)).bind fun place => ?_
          exact Spares.get_bind fun _ => Spares.pure _
      refine Spares.bind hassigned fun place => ?_
      cases place with
      | none => exact Spares.lift_bind _ fun _ => Spares.pure _
      | some place =>
        refine (ihr hright).bind fun value => ?_
        split
        · exact hc.assign_spares node place value
        · refine Spares.get_bind fun _ => (hc.applyBinary_spares node _ _ _).bind fun result => ?_
          exact hc.assign_spares node place result
    split
    · refine (ihl hleft).bind fun a => ?_
      split
      · exact Spares.pure _
      · exact (ihr hright).bind fun _ => Spares.pure _
    split
    · refine (ihl hleft).bind fun a => ?_
      split
      · exact Spares.pure _
      · exact (ihr hright).bind fun _ => Spares.pure _
    · refine (ihl hleft).bind fun a => (ihr hright).bind fun b => ?_
      exact hc.applyBinary_spares node symbol a b

theorem sequence_spares {values : List Node} (h : Node.sequenceConfined values = true) :
    Spares (sequence r node values scope) := by
  refine Spares.get_bind fun m => ?_
  split
  · exact Spares.pure _
  · next operation hoperation =>
      exact hc.operate_spares node (Operation.confined_of_ofSequence hoperation h)
  · exact Spares.lift_bind _ fun _ => Spares.pure _

theorem stepOperand_spares (symbol : String) (value : Option Value) :
    Spares (stepOperand r node symbol value scope) := by
  unfold stepOperand
  split
  · exact Spares.pure _
  · exact hc.applyUnary_spares node symbol value
  · exact Spares.lift_bind _ fun _ => Spares.pure _

theorem writeBack_spares {operand : Option Node} (value : Option Value)
    (h : Node.confinedIn .place operand = true) :
      Spares (writeBack r node operand value scope) := by
  unfold writeBack
  cases operand with
  | none => exact Spares.pure _
  | some operand =>
    refine (hc.placeOf_spares h).bind fun place => ?_
    cases place with
    | none => exact Spares.pure _
    | some place => exact (hc.writePlace_spares node place value).bind fun _ => Spares.pure _

/-- The operand is evaluated, and named if it is stepped. -/
theorem stepped_spares (symbol : String) {operand : Option Node} (value : Option Value)
    (given : Option Value → Option Value) (h : Node.confinedIn .place operand = true) :
    Spares (do
      let stepped ← stepOperand r node symbol value scope
      writeBack r node operand stepped scope
      return given stepped) := by
  refine (hc.stepOperand_spares node symbol value).bind fun stepped => ?_
  exact (hc.writeBack_spares node stepped h).bind fun _ => Spares.pure _

/-- The operand is read as a value, and as a place too if it is counted. -/
theorem prefixed_spares {operator operand : Option Node}
    (hvalue : Node.confinedIn .value operand = true)
    (hplace : isStep (symbolOf operator) = true → Node.confinedIn .place operand = true) :
    Spares (prefixed r node operator operand scope) := by
  refine (hc.evalChild_spares hvalue).bind fun value => ?_
  split
  · exact Spares.pure _
  split
  · exact Spares.pure _
  split
  · split
    · split
      · exact Spares.pure _
      · exact Spares.lift_bind _ fun _ => Spares.pure _
    · exact Spares.pure _
    · exact hc.applyUnary_spares node _ _
  split
  · next hstep => exact hc.stepped_spares node _ value id (hplace hstep)
  · exact hc.applyUnary_spares node _ _

theorem postfixed_spares {operator operand : Option Node}
    (hvalue : Node.confinedIn .value operand = true)
    (hplace : isStep (symbolOf operator) = true → Node.confinedIn .place operand = true) :
    Spares (postfixed r node operator operand scope) := by
  refine (hc.evalChild_spares hvalue).bind fun value => ?_
  split
  · next hstep => exact hc.stepped_spares node _ value (fun _ => value) (hplace hstep)
  · exact hc.applyUnary_spares node _ _

/-! ### Expressions -/

theorem invoke_spares (plan : Plan) (arguments : List Argument) (generics : List TypeTree) :
    Spares (invoke r node scope plan arguments generics) := by
  unfold invoke
  split
  · exact Spares.lift_bind _ fun _ => Spares.pure _
  · refine Spares.get_bind fun m => ?_
    dsimp only
    split
    · exact Spares.lift_bind _ fun _ => hc.call _
    · exact (Spares.pure _).bind fun _ => hc.call _

theorem wrapLiteral_spares (name : String) (literal : Value) :
    Spares (wrapLiteral r node name literal scope) := by
  refine Spares.get_bind fun m => ?_
  dsimp only
  split
  · exact Spares.pure _
  · exact hc.invoke_spares node _ _ []

theorem stringSegments_spares {segments : List Node}
    (h : ∀ node ∈ segments, node.confined .value = true) :
    Spares (stringSegments r scope segments) := by
  induction segments with
  | nil => exact Spares.pure _
  | cons segment rest ih =>
    have hrest := ih fun node hnode => h node (List.mem_cons_of_mem segment hnode)
    unfold stringSegments
    split
    · exact (Spares.pure _).bind fun _ => Spares.bind hrest fun _ => Spares.pure _
    · refine (hc.eval (h segment List.mem_cons_self)).bind fun value => Spares.get_bind fun m => ?_
      exact (Spares.pure _).bind fun _ => Spares.bind hrest fun _ => Spares.pure _

theorem elements_spares (h : ∀ node ∈ nodes, node.confined .value = true) :
    Spares (elements r scope nodes) := by
  induction nodes with
  | nil => exact Spares.pure _
  | cons node rest ih =>
    refine (hc.eval (h node List.mem_cons_self)).bind fun value => ?_
    exact (ih fun other hother => h other (List.mem_cons_of_mem node hother)).bind fun _ =>
      Spares.pure _

theorem dictionaryEntries_spares (read : Dictionary) (h : Node.entriesConfined nodes = true) :
    Spares (dictionaryEntries r scope nodes read) := by
  induction nodes generalizing read with
  | nil => exact Spares.pure _
  | cons node rest ih =>
    obtain ⟨range, form⟩ := node
    cases form with
    | entry key value =>
      obtain ⟨h, hrest⟩ := Bool.and_eq_true_iff.mp h
      obtain ⟨hkey, hvalue⟩ := Bool.and_eq_true_iff.mp h
      refine (hc.evalChild_spares hkey).bind fun key => ?_
      exact (hc.evalChild_spares hvalue).bind fun value => ih _ hrest
    | _ => exact ih read h

theorem argumentList_spares (h : ∀ node ∈ nodes, node.confined .value = true) :
    Spares (argumentList r scope nodes) := by
  induction nodes with
  | nil => exact Spares.pure _
  | cons node rest ih =>
    have hnode := h node List.mem_cons_self
    have hargument : Spares (argument r scope node) := by
      obtain ⟨range, form⟩ := node
      cases form with
      | argument label value => exact (hc.evalChild_spares hnode).bind fun _ => Spares.pure _
      | _ => exact (hc.eval hnode).bind fun _ => Spares.pure _
    refine Spares.bind hargument fun first => ?_
    exact (ih fun other hother => h other (List.mem_cons_of_mem node hother)).bind fun _ =>
      Spares.pure _

theorem arguments_spares {closure : Option Node} (h : ∀ node ∈ nodes, node.confined .value = true)
    (hclosure : Node.confinedIn .value closure = true) :
    Spares (arguments r nodes closure scope) := by
  refine (hc.argumentList_spares h).bind fun given => ?_
  cases closure with
  | none => exact Spares.pure _
  | some closure => exact (hc.eval hclosure).bind fun _ => Spares.pure _

theorem chain_spares {composite member : Option Node}
    (hcomposite : Node.confinedIn .link composite = true)
    (hmember : Node.confinedIn .value member = true) :
    Spares (chain r node composite member scope) := by
  refine (hc.evalLinkOf_spares hcomposite).bind fun base => Spares.get_bind fun m => ?_
  split
  · exact Spares.lift_bind _ fun _ => Spares.pure _
  · refine (hc.memberName_spares hmember).bind fun name => ?_
    cases name with
    | none => exact Spares.pure _
    | some name => exact Spares.get_bind fun _ => Spares.pure _

/-- What a callee names, is named link by link. -/
theorem callee_spares {node : Node} (h : node.confined .link = true) :
    Spares (callee r node scope) := by
  obtain ⟨range, form⟩ := node
  cases form with
  | identifier name => exact Spares.pure _
  | chain composite member =>
    obtain ⟨hcomposite, hmember⟩ := Bool.and_eq_true_iff.mp h
    refine (hc.evalLinkOf_spares hcomposite).bind fun base => ?_
    refine (hc.memberName_spares hmember).bind fun name => ?_
    cases name with
    | none => exact Spares.pure _
    | some name => exact Spares.get_bind fun _ => Spares.pure _
  | _ => exact (hc.evalLink h).bind fun _ => Spares.pure _

theorem callExpression_spares {called closure : Option Node}
    {genericArguments argumentNodes : List Node} (hcalled : Node.confinedIn .link called = true)
    (h : ∀ node ∈ argumentNodes, node.confined .value = true)
    (hclosure : Node.confinedIn .value closure = true) :
    Spares (callExpression r node called genericArguments argumentNodes closure scope) := by
  refine (Spares.mapM fun argument _ => Spares.lift _).bind fun generics => ?_
  refine (hc.arguments_spares h hclosure).bind fun arguments => ?_
  cases called
  case' some called => refine (hc.callee_spares hcalled).bind ?_
  case' none => refine (Spares.pure _).bind ?_
  all_goals
    intro callee
    dsimp only
    split
    · exact Spares.lift_bind _ fun _ => Spares.pure _
    · exact Spares.get_bind fun _ => hc.invoke_spares node _ arguments generics

theorem subscript_spares {composite closure : Option Node} {argumentNodes : List Node}
    (hcomposite : Node.confinedIn .link composite = true)
    (h : ∀ node ∈ argumentNodes, node.confined .value = true)
    (hclosure : Node.confinedIn .value closure = true) :
    Spares (subscript r node composite argumentNodes closure scope) := by
  refine (hc.evalLinkOf_spares hcomposite).bind fun base => ?_
  refine (hc.arguments_spares h hclosure).bind fun arguments => ?_
  split
  · exact Spares.pure _
  · exact Spares.pure _
  · refine Spares.get_bind fun m => ?_
    split
    · exact Spares.pure _
    · split
      · exact hc.call _
      · exact Spares.lift_bind _ fun _ => Spares.pure _

theorem inoutExpression_spares (h : Node.confinedIn .value value = true) :
    Spares (inoutExpression r node value scope) := by
  refine (hc.evalChild_spares h).bind fun value => ?_
  split
  · exact Spares.pure _
  · exact Spares.lift_bind _ fun _ => Spares.pure _

theorem tryExpression_spares (nillable : Bool) (h : Node.confinedIn .value value = true) :
    Spares (tryExpression r nillable value scope) := by
  intro m
  refine (hc.evalChild_spares h m).bind fun outcome m₁ h₁ => ?_
  cases outcome with
  | ok value => exact Yields.pure spared_ok
  | error u =>
    refine Yields.get_bind ?_
    split
    · exact (Yields.any _).bind fun _ _ _ => Yields.pure spared_ok
    · exact Yields.pure h₁

/-- A link without nillable link in it is no end at nil. -/
theorem linkNow_spares {node : Node} (h : node.confined .link = true) :
    Spares (linkNow r node scope) := by
  obtain ⟨range, form⟩ := node
  cases form with
  | chain composite member =>
    obtain ⟨hcomposite, hmember⟩ := Bool.and_eq_true_iff.mp h
    exact hc.chain_spares _ hcomposite hmember
  | call callee genericArguments arguments closure =>
    obtain ⟨h, hcallee⟩ := Bool.and_eq_true_iff.mp h
    obtain ⟨harguments, hclosure⟩ := Bool.and_eq_true_iff.mp h
    exact hc.callExpression_spares _ hcallee (Node.allConfined_iff.mp harguments) hclosure
  | subscript composite genericArguments arguments closure =>
    obtain ⟨h, hclosure⟩ := Bool.and_eq_true_iff.mp h
    obtain ⟨hcomposite, harguments⟩ := Bool.and_eq_true_iff.mp h
    exact hc.subscript_spares _ hcomposite (Node.allConfined_iff.mp harguments) hclosure
  | nillableExpression value => exact absurd h Bool.false_ne_true
  | _ => exact hc.eval h

/-! ### Statements -/

theorem branch_spares {node : Option Node} (h : Node.confinedIn .value node = true) :
    Spares (branch r node scope) := by
  cases node with
  | none => exact Spares.pure _
  | some node =>
    obtain ⟨range, form⟩ := node
    cases form with
    | body statements => exact hc.executeStatements_spares (Node.allConfined_iff.mp h)
    | _ => exact hc.eval h

theorem ifStatement_spares {condition consequence alternative : Option Node}
    (hcondition : Node.confinedIn .value condition = true)
    (hconsequence : Node.confinedIn .value consequence = true)
    (halternative : Node.confinedIn .value alternative = true) :
    Spares (ifStatement r condition consequence alternative scope) := by
  refine Spares.lift_bind _ fun space => (hc.withScope_spares ?_ _ true).bind fun outcome => ?_
  · refine (hc.evalChild_spares hcondition).bind fun value => ?_
    split
    · exact (hc.branch_spares hconsequence).bind fun _ => Spares.pure _
    split
    · exact Spares.pure _
    · exact (hc.branch_spares halternative).bind fun _ => Spares.pure _
  · cases outcome with
    | some value => exact Spares.pure _
    | none => exact hc.evalChild_spares halternative

section Loops

variable {condition body : Option Node} (hcondition : Node.confinedIn .value condition = true)
  (hbody : Node.confinedIn .value body = true)

include hcondition hbody

theorem round_spares : Spares (Run.round r condition body scope) := by
  refine Spares.lift_bind _ fun space => hc.withScope_spares ?_ _ true
  refine (hc.evalChild_spares hcondition).bind fun value => ?_
  split
  · exact Spares.pure _
  · exact (hc.branch_spares hbody).bind fun _ => Spares.pure _

/-- A loop ends at a break and goes on at a continue; any other transfer gets out of it as it is. -/
theorem turn_spares : Spares (turn r condition body scope) := by
  intro m
  refine (hc.round_spares hcondition hbody m).bind fun outcome m₁ h₁ => ?_
  have hreset : ∀ again : Bool, Yields m₁ (do resetTransfer r; return .ok again) Spared :=
    fun again => (Yields.any _).bind fun _ _ _ => Yields.pure spared_ok
  split
  · exact Yields.pure spared_ok
  · exact hreset true
  · refine Yields.get_bind ?_
    split
    · exact hreset false
    · exact hreset true
    · exact Yields.pure h₁

theorem whileStatement_spares : Spares (whileStatement r condition body scope) := by
  unfold whileStatement
  induction r.budget with
  | zero => exact Spares.lift _
  | succ rounds ih =>
    refine (hc.turn_spares hcondition hbody).bind fun again => ?_
    split
    · exact ih
    · exact Spares.pure _

end Loops

theorem transfer_spares {k : TransferKind} (h : Node.confinedIn .value value = true)
    (hk : k ≠ .nilUnwrap) : Spares (transfer r value k scope) :=
  (hc.evalChild_spares h).bind fun _ => hc.transferred_spares hk

/-! ### Declarations -/

theorem variableDeclaration_spares (modifiers : List String) {declarators : List Node}
    (h : Node.declaratorsConfined declarators = true) :
    Spares (variableDeclaration r modifiers declarators scope) := by
  refine Spares.bind ?_ fun _ => Spares.pure _
  induction declarators with
  | nil => exact Spares.pure _
  | cons node rest ih =>
    obtain ⟨range, form⟩ := node
    cases form with
    | declarator identifier type value body =>
      obtain ⟨hvalue, hrest⟩ := Bool.and_eq_true_iff.mp h
      refine Spares.bind ?_ fun _ => ih hrest
      unfold declarator
      dsimp only [Node.form]
      split
      · exact Spares.pure _
      · refine Spares.lift_bind _ fun _ => (hc.evalChild_spares hvalue).bind fun _ => ?_
        exact Spares.lift_bind _ fun _ => Spares.lift_bind _ fun _ => Spares.pure _
    | _ => exact (Spares.pure _).bind fun _ => ih h

omit hc in
/-- Of what a function declaration comes to, only the static statements run. -/
theorem statics_of_declaredFunction {parts : FunctionParts Node} {kind : Option Kind}
    {statements statics : List Node} {signature : Option Node}
    (h : declaredFunction parts kind = some (statements, signature, statics)) :
    ∀ node ∈ statics, node ∈ staticStatements (bodyStatements parts.body) := by
  unfold declaredFunction at h
  dsimp only at h
  split at h
  · split at h
    · cases h
    · cases h; exact fun _ h => h
  split at h
  · cases h; exact fun _ h => absurd h List.not_mem_nil
  split at h
  · cases h
  · cases h; exact fun _ h => h

theorem functionDeclaration_spares {parts : FunctionParts Node}
    (h : Node.bodyConfined true parts.body = true) :
    Spares (functionDeclaration r parts scope) := by
  refine Spares.lift_bind _ fun _ => ?_
  split
  · next hdeclared =>
    have hstatics := fun node hmem =>
      Node.confined_of_statics h node (statics_of_declaredFunction hdeclared node hmem)
    refine Spares.lift_bind _ fun _ => Spares.lift_bind _ fun _ => Spares.lift_bind _ fun _ => ?_
    refine Spares.lift_bind _ fun _ =>
      (hc.executeStatements_spares hstatics).bind fun _ => Spares.pure _
  · exact Spares.pure _

theorem compositeDeclaration_spares {kind : DeclaredKind} {parts : CompositeParts Node}
    (anonymous : Bool) (h : Node.bodyConfined kind.kind.instantiable parts.body = true) :
    Spares (compositeDeclaration r kind parts scope anonymous) := by
  have hstatics :
    ∀ node ∈ (if kind.kind.instantiable then staticStatements (bodyStatements parts.body)
      else bodyStatements parts.body), node.confined .value = true := by
    split
    · next hkind =>
      rw [hkind] at h
      exact Node.confined_of_statics h
    · next hkind =>
      intro node hmem
      exact (Node.confined_of_bodyConfined h node hmem).resolve_left fun hnot => hkind hnot.1
  have hrun := fun composite : Handle => hc.withScope_spares
    (show Spares (executeStatements r composite _) from hc.executeStatements_spares hstatics)
    ⟨composite, none, none⟩ false
  unfold compositeDeclaration
  dsimp only
  split
  · exact Spares.pure _
  · refine Spares.lift_bind _ fun composite => ?_
    split
    · exact Spares.lift_bind _ fun _ => (hrun composite).bind fun _ => Spares.pure _
    · exact (hrun composite).bind fun _ => Spares.pure _

theorem importDeclaration_spares (h : Node.confinedIn .value value = true) :
    Spares (importDeclaration r node value scope) := by
  refine (hc.evalChild_spares h).bind fun imported => Spares.get_bind fun m => ?_
  split
  · exact Spares.lift_bind _ fun _ => Spares.pure _
  · exact Spares.lift_bind _ fun _ => Spares.pure _

/-! ### Calls -/

/-- What gets out of a call is a throw or an abort, whatever it was that ended the function. -/
theorem callNow_spares (call : Call) : Spares (callNow r call) := by
  have hleave : ∀ title type transfer, Spares (leaveFunction r call title type transfer) := by
    intro title type transfer
    unfold leaveFunction
    split
    · exact Spares.pure _
    split
    · split
      · exact Spares.lift_bind _ fun _ => hc.transferred_spares (by decide)
      · exact hc.transferred_spares (by decide)
    · exact hc.transferred_spares (by decide)
    · exact Spares.pure _
  refine Spares.get_bind fun m => ?_
  split
  · exact Spares.lift_bind _ fun _ => hc.transferred_spares (by decide)
  split
  · exact Spares.pure _
  split
  · exact Spares.lift _
  · refine Spares.lift_bind _ fun space => Spares.lift_bind _ fun _ =>
      Spares.lift_bind _ fun _ => ?_
    refine Spares.lift_bind _ fun _ => Spares.lift_bind _ fun _ => Spares.lift_bind _ fun _ => ?_
    exact Spares.lift_bind _ fun transfer => hleave _ _ transfer

/-! ### Nodes -/

/-- A confined node spares, form by form. -/
theorem evalNow_spares {node : Node} (h : node.confined .value = true) :
    Spares (evalNow r node scope) := by
  obtain ⟨range, form⟩ := node
  cases form with
  | module statements => exact hc.executeStatements_spares (Node.allConfined_iff.mp h)
  | body statements => exact hc.executeStatements_spares (Node.allConfined_iff.mp h)
  | identifier name => exact Spares.lift _
  | stringLiteral segments =>
    exact (hc.stringSegments_spares (Node.allConfined_iff.mp h)).bind fun _ => Spares.pure _
  | stringExpression value => exact hc.evalChild_spares h
  | arrayLiteral values =>
    exact (hc.elements_spares (Node.allConfined_iff.mp h)).bind fun _ => hc.wrapLiteral_spares _ _ _
  | dictionaryLiteral entries =>
    exact (hc.dictionaryEntries_spares [] h).bind fun _ => hc.wrapLiteral_spares _ _ _
  | entry key value => exact hc.evalChild_spares h
  | parenthesized value => exact hc.evalChild_spares h
  | sequence values => exact hc.sequence_spares _ h
  | prefixed operator operand =>
    obtain ⟨hvalue, hplace⟩ := Bool.and_eq_true_iff.mp h
    refine hc.prefixed_spares _ hvalue fun hstep => ?_
    rw [hstep] at hplace
    exact hplace
  | postfixed operator operand =>
    obtain ⟨hvalue, hplace⟩ := Bool.and_eq_true_iff.mp h
    refine hc.postfixed_spares _ hvalue fun hstep => ?_
    rw [hstep] at hplace
    exact hplace
  | call callee genericArguments arguments closure => exact absorbNilUnwrap_spares _
  | argument label value => exact hc.evalChild_spares h
  | chain composite member => exact absorbNilUnwrap_spares _
  | subscript composite genericArguments arguments closure => exact absorbNilUnwrap_spares _
  | inoutExpression value => exact hc.inoutExpression_spares _ h
  | nillableExpression value => exact absorbNilUnwrap_spares _
  | tryExpression nillable value => exact hc.tryExpression_spares nillable h
  | deleteExpression value => exact hc.deleteExpression_spares _ h
  | typeExpression type => exact Spares.lift_bind _ fun _ => Spares.pure _
  | functionExpression parts => exact Spares.lift _
  | compositeExpression kind parts => exact hc.compositeDeclaration_spares true h
  | variableDeclaration modifiers declarators => exact hc.variableDeclaration_spares modifiers h
  | functionDeclaration parts => exact hc.functionDeclaration_spares h
  | initializerDeclaration modifiers nillable signature body => exact Spares.lift _
  | deinitializerDeclaration body => exact Spares.lift _
  | compositeDeclaration kind parts => exact hc.compositeDeclaration_spares false h
  | operatorDeclaration modifiers operator body => exact Spares.lift _
  | importDeclaration value => exact hc.importDeclaration_spares _ h
  | ifStatement condition consequence alternative =>
    obtain ⟨h, halternative⟩ := Bool.and_eq_true_iff.mp h
    obtain ⟨hcondition, hconsequence⟩ := Bool.and_eq_true_iff.mp h
    exact hc.ifStatement_spares hcondition hconsequence halternative
  | whileStatement condition body =>
    obtain ⟨hcondition, hbody⟩ := Bool.and_eq_true_iff.mp h
    exact hc.whileStatement_spares hcondition hbody
  | returnStatement value => exact hc.transfer_spares h (by decide)
  | throwStatement value => exact hc.transfer_spares h (by decide)
  | breakStatement label => exact hc.transfer_spares rfl (by decide)
  | continueStatement label => exact hc.transfer_spares rfl (by decide)
  | _ => exact Spares.pure _

end Confines

/-! ## The knot -/

/-- At every depth, confined nodes spare. -/
theorem confines_rules (depth : Nat) : Confines (rules depth) := by
  induction depth with
  | zero =>
    exact ⟨fun _ => Spares.lift exhausted, fun _ => Spares.lift exhausted, fun _ =>
      Spares.lift exhausted, (obeys_bare 0).2⟩
  | succ depth ih =>
      exact ⟨ih.evalNow_spares, ih.linkNow_spares, ih.callNow_spares, (obeys_bare (depth + 1)).2⟩

end CompositeGraph
