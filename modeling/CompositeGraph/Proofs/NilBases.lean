/-
  NIL BASES: how a chain comes to end at nil, and what becomes of it.

  The base of a chain is evaluated before anything else of it, and so on down to its first link.  If
  a nillable link is nil there, all links behind it are skipped.  An expression made of links is nil
  then, and the statements behind it run.  As a place it is not: what deletes, assigns or steps it
  unwinds, and the rest of the function is skipped.

    1. ENDS.      `EndsAtNil`: a link ends at nil; `NamesNil`: so does the naming of a place.
    2. FRAMES.    The end at nil is alone in the innermost frame, without a value.
    3. ABSENCE.   Taken as values, such links are nil.
    4. ESCAPES.   Taken as places, they are not.
-/
import CompositeGraph.Proofs.Confinement
import CompositeGraph.Proofs.Safety

namespace CompositeGraph

open Run Discipline

/-! ## Ends -/

/-- A link ends at nil between two machines: a nillable link is nil, or the link in front of this
    one ends at nil.  A call evaluates its arguments before the links in front of it. -/
inductive EndsAtNil (scope : Handle) : (depth : Nat) → Node → Machine → Machine → Prop where
  | nil {depth range value m m₁ m'} :
      (evalLinkOf (rules depth) value scope).outcome m = .ok (.ok none, m₁) →
      setTransfer (rules depth) none (some .nilUnwrap) m₁ = .ok ((), m') →
      EndsAtNil scope (depth + 1) (.mk range (.nillableExpression value)) m m'
  | nillable {depth range value m m'} :
      EndsAtNil scope depth value m m' →
      EndsAtNil scope (depth + 1) (.mk range (.nillableExpression (some value))) m m'
  | chain {depth range composite member m m'} :
      EndsAtNil scope depth composite m m' →
      EndsAtNil scope (depth + 1) (.mk range (.chain (some composite) member)) m m'
  | subscript {depth range composite genericArguments arguments closure m m'} :
      EndsAtNil scope depth composite m m' →
      EndsAtNil scope (depth + 1)
      (.mk range (.subscript (some composite) genericArguments arguments closure)) m m'
  | callee {depth range called genericArguments argumentNodes closure generics given m m₁ m₂ m'} :
      Flow.outcome (genericArguments.mapM fun argument =>
        (typeOf scope (some argument) : Run TypeTree)) m =
        .ok (.ok generics, m₁) →
      (arguments (rules depth) argumentNodes closure scope).outcome m₁ = .ok (.ok given, m₂) →
      (∀ composite member, called.form ≠ .chain composite member) →
      EndsAtNil scope depth called m₂ m' →
      EndsAtNil scope (depth + 1)
      (.mk range (.call (some called) genericArguments argumentNodes closure)) m m'
  /-- The callee of a method is named, so its base is one link less deep. -/
  | method {depth range inner composite member genericArguments argumentNodes closure generics
      given m m₁ m₂ m'} :
      Flow.outcome (genericArguments.mapM fun argument =>
        (typeOf scope (some argument) : Run TypeTree)) m =
        .ok (.ok generics, m₁) →
      (arguments (rules depth) argumentNodes closure scope).outcome m₁ = .ok (.ok given, m₂) →
      EndsAtNil scope depth composite m₂ m' →
      EndsAtNil scope (depth + 1)
      (.mk range (.call (some (.mk inner (.chain (some composite) member)))
        genericArguments argumentNodes closure)) m m'

/-- A place with a base that ends at nil. -/
inductive NamesNil (scope : Handle) (depth : Nat) (m m' : Machine) : Node → Prop where
  | chain {range composite member} :
      EndsAtNil scope depth composite m m' →
      NamesNil scope depth m m' (.mk range (.chain (some composite) member))
  | subscript {range composite genericArguments arguments closure} :
      NamesNil scope depth m m' composite →
      NamesNil scope depth m m'
      (.mk range (.subscript (some composite) genericArguments arguments closure))
  | parenthesized {range value} :
      NamesNil scope depth m m' value →
      NamesNil scope depth m m' (.mk range (.parenthesized (some value)))

section Flows

variable {α β : Type} {x : Flow α} {f : α → Flow β} {m m₁ : Machine}

/-- What comes after an unwinding is skipped. -/
theorem outcome_bind_error {u : Unwind} (hx : x.outcome m = .ok (.error u, m₁)) :
    (x >>= f).outcome m = .ok (.error u, m₁) := by
  change (x.outcome m >>= fun p => ExceptT.bindCont f p.1 p.2) = _
  rw [hx]
  rfl

theorem outcome_bind_ok {a : α} (hx : x.outcome m = .ok (.ok a, m₁)) :
    (x >>= f).outcome m = (f a).outcome m₁ := by
  change (x.outcome m >>= fun p => ExceptT.bindCont f p.1 p.2) = _
  rw [hx]
  rfl

theorem outcome_lift {y : Run α} {a : α} (hy : y m = .ok (a, m₁)) :
    (liftM y : Flow α).outcome m = .ok (.ok a, m₁) := by
  change ((y >>= fun a => pure (.ok a)) : Run (Except Unwind α)) m = _
  change (y m >>= fun p => (pure (.ok p.1) : Run (Except Unwind α)) p.2) = _
  rw [hy]
  rfl

end Flows

variable {scope : Handle} {depth : Nat} {m m' : Machine} {node : Node}

/-- A link that ends at nil unwinds. -/
theorem EndsAtNil.unwinds (h : EndsAtNil scope depth node m m') :
    ((rules depth).evalLink node scope).outcome m = .ok (.error ⟨⟩, m') := by
  induction h with
  | nil hvalue hset => exact (outcome_bind_ok hvalue).trans (outcome_bind_ok (outcome_lift hset))
  | nillable _ ih => exact outcome_bind_error ih
  | chain _ ih => exact outcome_bind_error ih
  | subscript _ ih => exact outcome_bind_error ih
  | callee hgenerics hgiven hnot hcalled ih =>
    refine (outcome_bind_ok hgenerics).trans
      ((outcome_bind_ok hgiven).trans (outcome_bind_error ?_))
    -- the callee is a link, and no chain
    cases hcalled with
    | chain _ => exact absurd rfl (hnot _ _)
    | _ => exact outcome_bind_error ih
  | method hgenerics hgiven _ ih =>
    refine (outcome_bind_ok hgenerics).trans
      ((outcome_bind_ok hgiven).trans (outcome_bind_error ?_))
    exact outcome_bind_error ih

/-- A place whose base ends at nil is not named. -/
theorem NamesNil.unwinds (h : NamesNil scope depth m m' node) :
    (placeOf (rules depth) scope node).outcome m = .ok (.error ⟨⟩, m') := by
  induction h with
  | chain hcomposite => exact outcome_bind_error hcomposite.unwinds
  | subscript _ ih => exact outcome_bind_error ih
  | parenthesized _ ih => exact ih

/-! ## Frames -/

/-- What comes to a value leaves the frame open. -/
theorem isOpen_of_flows {α : Type} [Held α] {x : Flow α} {a : α} {m₁ : Machine}
    (hx : bare.Flows any m x x)
    (hopen : IsOpen m.control) (h : x.outcome m = .ok (.ok a, m₁)) : IsOpen m₁.control :=
  ((hx (fits_bare m) hopen).post h).ends.1

/-- So does what a call evaluates before its callee. -/
theorem isOpen_before_callee {genericArguments argumentNodes : List Node} {closure : Option Node}
    {generics : List TypeTree} {given : List Argument} {m₁ m₂ : Machine} (hopen : IsOpen m.control)
    (hgenerics : Flow.outcome (genericArguments.mapM fun argument =>
      (typeOf scope (some argument) : Run TypeTree)) m = .ok (.ok generics, m₁))
    (hgiven : (arguments (rules depth) argumentNodes closure scope).outcome m₁ =
      .ok (.ok given, m₂)) :
    IsOpen m₂.control := by
  have hopen₁ :=
    isOpen_of_flows (Flows.mapM fun _ _ _ _ => Flows.lift (typeOf_keeps _)) hopen hgenerics
  exact isOpen_of_flows (arguments_flows (minds_bare depth) argumentNodes closure trivial)
    hopen₁ hgiven

/-- The end at nil is all that the innermost frame holds. -/
theorem EndsAtNil.current?_eq (h : EndsAtNil scope depth node m m') (hopen : IsOpen m.control) :
    m'.control.current? = some ⟨some .nilUnwrap, none⟩ := by
  induction h with
  | @nil depth range value m m₁ m' hvalue hset =>
    have hopen₁ := isOpen_of_flows (evalLinkOf_flows (minds_bare depth) value trivial) hopen hvalue
    have hreaches :=
      (setTransfer_agrees (admits_bare (obeys_bare depth).2) (some .nilUnwrap) (fits_bare m₁)
      knows_bare).post hset
    rw [hreaches.control, Control.set]
    cases hframes : m₁.control.frames with
    | nil => exact absurd hframes hopen₁.1
    | cons old rest => rfl
  | nillable _ ih => exact ih hopen
  | chain _ ih => exact ih hopen
  | subscript _ ih => exact ih hopen
  | callee hgenerics hgiven _ _ ih => exact ih (isOpen_before_callee hopen hgenerics hgiven)
  | method hgenerics hgiven _ ih => exact ih (isOpen_before_callee hopen hgenerics hgiven)

theorem NamesNil.current?_eq (h : NamesNil scope depth m m' node) (hopen : IsOpen m.control) :
    m'.control.current? = some ⟨some .nilUnwrap, none⟩ := by
  induction h with
  | chain hcomposite => exact hcomposite.current?_eq hopen
  | subscript _ ih => exact ih
  | parenthesized _ ih => exact ih

/-! ## Absence -/

/-- The machine with the transfer in its innermost frame taken out. -/
def Machine.resumed (m : Machine) : Machine := { m with control := m.control.take.2 }

/-- Nothing is collected with an end at nil. -/
theorem resetTransfer_resumed {r : Rules} (h : m.control.current? = some ⟨some .nilUnwrap, none⟩) :
    resetTransfer r m = .ok ((), m.resumed) := by
  unfold Control.current? at h
  show collectTransfer r m.control.take.1 { m with control := m.control.take.2 } = _
  unfold Machine.resumed Control.take
  cases hframes : m.control.frames with
  | nil => rfl
  | cons top rest =>
    rw [hframes] at h
    cases h
    rfl

theorem absorbNilUnwrap_absent {r : Rules} {x : Flow (Option Value)}
    (hx : x.outcome m = .ok (.error ⟨⟩, m'))
    (h : m'.control.current? = some ⟨some .nilUnwrap, none⟩) :
    (absorbNilUnwrap r x).outcome m = .ok (.ok none, m'.resumed) := by
  have hkind : m'.control.kind? = some .nilUnwrap := by rw [Control.kind?, h]; rfl
  have habsorb : (absorbNilUnwrap r x).outcome m =
      (if m'.control.kind? = some .nilUnwrap then do resetTransfer r; return .ok none
        else return .error ⟨⟩ : Run (Except Unwind (Option Value))) m' := by
    change (x.outcome m >>= _) = _
    rw [hx]
    rfl
  rw [habsorb, if_pos hkind]
  change (resetTransfer r m' >>= _) = _
  rw [resetTransfer_resumed h]
  rfl

/-- Links that end at nil are nil as an expression. -/
theorem EndsAtNil.absent (h : EndsAtNil scope depth node m m') (hopen : IsOpen m.control) :
    ((rules (depth + 1)).eval node scope).outcome m = .ok (.ok none, m'.resumed) := by
  have heval : (rules (depth + 1)).eval node scope =
      absorbNilUnwrap (rules depth) ((rules depth).evalLink node scope) := by
    cases h <;> rfl
  rw [heval]
  exact absorbNilUnwrap_absent h.unwinds (h.current?_eq hopen)

/-- From a frame that holds nothing, nothing is taken. -/
theorem Machine.take_resumed (m : Machine) :
    m.resumed.control.take = (none, m.resumed.control) := by
  unfold Machine.resumed Control.take
  cases hframes : m.control.frames with
  | nil => simp only [hframes]
  | cons top rest => rfl

/-- A statement that is nil is followed by the next: what it created is looked at in between. -/
theorem executeStatements_after_absent {r : Rules}
    (heval : (r.eval node scope).outcome m = .ok (.ok none, m'.resumed))
    (next : Node) (rest : List Node) :
    (executeStatements r scope (node :: next :: rest)).outcome m =
      (do
        collectFrom r m.store.size
        (executeStatements r scope (next :: rest)).outcome) m'.resumed := by
  have hstatement : (executeStatement r node scope false).outcome m =
      (do collectFrom r m.store.size; return .ok none : Run (Except Unwind (Option Value)))
      m'.resumed := by
    change ((r.eval node scope).outcome m >>= _) = _
    rw [heval]
    change (do
        collectFrom r m.store.size
        collectTransfer r m'.resumed.control.take.1
        return .ok none : Run (Except Unwind (Option Value)))
      { m'.resumed with control := m'.resumed.control.take.2 } = _
    rw [Machine.take_resumed]
    rfl
  change ((executeStatement r node scope false).outcome m >>= fun p =>
    ExceptT.bindCont (fun _ => executeStatements r scope (next :: rest)) p.1 p.2) = _
  rw [hstatement]
  change ((collectFrom r m.store.size m'.resumed >>= _) >>= _) =
    (collectFrom r m.store.size m'.resumed >>= _)
  cases collectFrom r m.store.size m'.resumed with
  | error halt => rfl
  | ok p => rfl

/-! ## Escapes -/

/-- An end at nil gets out of nothing but places: a node without nillable link in a place never
    unwinds with one, nor does a list of such statements.  An expression whose links end at nil is
    nil, and the next statement runs.  A place whose base ends at nil is not absent: what deletes,
    assigns or steps it unwinds with the end at nil under way. -/
theorem ends_at_nil_confined (depth : Nat) (scope : Handle) :
    (∀ node : Node, node.confined .value = true → Spares ((rules depth).eval node scope)) ∧
    (∀ nodes : List Node, (∀ node ∈ nodes, node.confined .value = true) →
      Spares (executeStatements (rules depth) scope nodes)) ∧
    (∀ m : Machine, m.control.frames ≠ [] → m.control.isExplicit = false →
      (∀ node m', EndsAtNil scope depth node m m' →
        ((rules (depth + 1)).eval node scope).outcome m = .ok (.ok none, m'.resumed) ∧
        m'.resumed.control.isExplicit = false ∧
        ∀ next rest,
          (executeStatements (rules (depth + 1)) scope (node :: next :: rest)).outcome m =
          (do
            collectFrom (rules (depth + 1)) m.store.size
            (executeStatements (rules (depth + 1)) scope (next :: rest)).outcome) m'.resumed) ∧
      (∀ target m', NamesNil scope depth m m' target →
        m'.control.kind? = some .nilUnwrap ∧
        (∀ range, ((rules (depth + 1)).eval (.mk range (.deleteExpression (some target)))
          scope).outcome m = .ok (.error ⟨⟩, m')) ∧
        ∀ node value,
          (writeBack (rules depth) node (some target) value scope).outcome m = .ok (.error ⟨⟩, m') ∧
          ∀ symbol right, isAssignment symbol = true →
            (operate (rules depth) node scope (.join symbol (.operand target) right)).outcome m =
              .ok (.error ⟨⟩, m'))) := by
  have hc := confines_rules depth
  refine ⟨fun node h => hc.eval h, fun nodes h => hc.executeStatements_spares h,
    fun m hframe hidle => ?_⟩
  have hopen := isOpen_of_isExplicit hframe hidle
  constructor
  · intro node m' h
    have habsent := h.absent hopen
    refine ⟨habsent, ?_, executeStatements_after_absent habsent⟩
    have hlands := ((obeys_bare (depth + 1)).1.eval node trivial (fits_bare m) hopen).post habsent
    rw [Control.isExplicit, hlands.ends.1.2]
    rfl
  · intro target m' h
    have hunwinds := h.unwinds
    refine ⟨?_, fun range => outcome_bind_error hunwinds, fun node value =>
      ⟨outcome_bind_error hunwinds, ?_⟩⟩
    · rw [Control.kind?, h.current?_eq hopen]
      rfl
    · intro symbol right hassigns
      unfold operate
      rw [if_pos hassigns]
      exact outcome_bind_error (outcome_bind_error hunwinds)

open Sketch

/-- The member `b` of nil, with nil as the end of the chain. -/
def memberOfNil : Node :=
  .bare (.chain (some (.bare (.nillableExpression (some (.bare .nilLiteral))))) (some (named "b")))

/-- `nil?.b` is nil, and the same as a place is not. -/
theorem ends_at_nil_confined_member :
    let m : Machine := { control := ⟨[none]⟩ }
    let m' : Machine := { control := ⟨[some ⟨some .nilUnwrap, none⟩]⟩ }
    memberOfNil.confined .value = true ∧ m.control.frames ≠ [] ∧ m.control.isExplicit = false ∧
      EndsAtNil ⟨0, 0⟩ 4 memberOfNil m m' ∧ NamesNil ⟨0, 0⟩ 4 m m' memberOfNil ∧
      isAssignment "+=" = true ∧
      Spares ((rules 4).eval memberOfNil ⟨0, 0⟩) ∧
      Spares (executeStatements (rules 4) ⟨0, 0⟩ [memberOfNil]) ∧
      ((rules 5).eval memberOfNil ⟨0, 0⟩).outcome m = .ok (.ok none, m'.resumed) ∧
      (operate (rules 4) memberOfNil ⟨0, 0⟩
        (.join "+=" (.operand memberOfNil) (.operand memberOfNil))).outcome m =
        .ok (.error ⟨⟩, m') := by
  intro m m'
  have hframe : m.control.frames ≠ [] := List.cons_ne_nil _ _
  have hbase (depth : Nat) :
    (evalLinkOf (rules (depth + 2)) (some (.bare .nilLiteral)) ⟨0, 0⟩).outcome m =
      .ok (.ok none, m) := rfl
  have hends : EndsAtNil ⟨0, 0⟩ 4 memberOfNil m m' := .chain (.nil (hbase 0) rfl)
  have hnames : NamesNil ⟨0, 0⟩ 4 m m' memberOfNil := .chain (.nil (hbase 1) rfl)
  obtain ⟨hnode, hlist, hmachine⟩ := ends_at_nil_confined 4 ⟨0, 0⟩
  obtain ⟨habsent, hescapes⟩ := hmachine m hframe rfl
  refine ⟨rfl, hframe, rfl, hends, hnames, rfl, hnode memberOfNil rfl, hlist _ ?_,
    (habsent _ _ hends).1, ?_⟩
  · intro node hnode
    rw [List.mem_singleton.mp hnode]
    rfl
  · exact ((hescapes _ _ hnames).2.2 memberOfNil none).2 "+=" _ rfl

/-- A call of a function that runs a statement and then prints. -/
def printingAfter (statement : Node) : Node := .bare (.module
  [functionNamed "f" [] [statement, calling "print" [.bare (.stringSegment "reached")]],
    calling "f" []])

/-- What a module reports. -/
def reported (tree : Node) : Option (List String) :=
  (runModule (rules 40) tree (.fresh {})).toOption.map fun result =>
    result.2.reports.entries.toList.map (·.string)

/-- With `nil?.b` as a statement the function goes on to print; assigned, added to, stepped or
    deleted, it takes the function to its end. -/
theorem places_of_nil_end_functions :
    reported (printingAfter memberOfNil) = some ["reached"] ∧
      (∀ symbol ∈ ["=", "+="], reported (printingAfter
        (.bare (.sequence [memberOfNil, .bare (.operator .between symbol), .bare .nilLiteral]))) =
          some []) ∧
      (∀ symbol ∈ ["++", "--"], reported (printingAfter
        (.bare (.postfixed (some (.bare (.operator .after symbol))) (some memberOfNil)))) =
          some []) ∧
      reported (printingAfter (.bare (.deleteExpression (some memberOfNil)))) = some [] := by
  decide +kernel

end CompositeGraph
