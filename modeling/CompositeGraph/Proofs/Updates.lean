/-
  UPDATES that fail.

  A compound assignment and a step up or down first work out a value and then write it to their
  target.  If there is none to work out, because an integer is too large, a divisor is zero or the
  operands are of the wrong sort, the error is reported and nil is written: the target is cleared.
  Only a step of what cannot be counted is no error at all; the operand is passed through and
  written back as it is.

    1. ROOTS.    An entry is written by writing the member that it is in;
                 `Machine.filled` is what that gets.
    2. WRITING.  A write that leaves the composites that are held as they are comes to its end.
    3. FAILING.  `UpdateFails` follows an update without a result to the point
where it writes. -/
import CompositeGraph.Proofs.Assignments
import CompositeGraph.Proofs.Dictionaries

namespace CompositeGraph

open Run Machine Sketch

/-! ## Roots -/

/-- The member that a place is in, as a place. -/
def Place.root : Place → Place
  | .member composite identifier internal => .member composite identifier internal
  | .entry base _ => base.root

namespace Machine

variable {m m' : Machine} {place : Place} {value : Option Value}

/-- What the member that a place is in gets when a value is written to the place. -/
def filled (m : Machine) : Place → Option Value → Option Value
  | .member _ _ _, value => value
  | .entry base key, value =>
    match m.readPlace base with
    | some (.dictionary entries) =>
        m.filled base (some (.dictionary (Dictionary.insert key value entries)))
    | _ => none

/-- An entry is there if it is one of a dictionary. -/
theorem exists_dictionary_of_placeExists {base : Place} {key : Value}
    (h : m.placeExists (.entry base key) = true) :
    ∃ entries, m.readPlace base = some (.dictionary entries) := by
  rw [placeExists] at h
  split at h
  · rename_i entries hbase
    exact ⟨entries, hbase⟩
  · cases h

/-- An entry that has a value is there. -/
theorem placeExists_of_readPlace {base : Place} {key : Value} {v : Value}
    (h : m.readPlace (.entry base key) = some v) : m.placeExists (.entry base key) = true := by
  rw [readPlace] at h
  rw [placeExists]
  split at h
  · rfl
  · cases h

/-- A base that holds a dictionary is a member, or is there. -/
theorem placeExists_of_isEntry {v : Value} (h : m.readPlace place = some v)
    (hentry : place.isEntry = true) : m.placeExists place = true := by
  cases place with
  | member _ _ _ => cases hentry
  | entry base key => exact placeExists_of_readPlace h

/-- A member never gets nil for an entry. -/
theorem isSome_filled (hthere : place.isEntry = true → m.placeExists place = true)
    (hsome : value.isSome = true ∨ place.isEntry = true) :
    (m.filled place value).isSome = true := by
  induction place generalizing value with
  | member _ _ _ => exact hsome.resolve_right Bool.false_ne_true
  | entry base key ih =>
    obtain ⟨entries, hbase⟩ := exists_dictionary_of_placeExists (hthere rfl)
    rw [filled, hbase]
    exact ih (placeExists_of_isEntry hbase) (.inl rfl)

end Machine

/-- What is found under a key is equal to it, so the key is equal to itself. -/
theorem Dictionary.beq_self_of_get? {d : Dictionary} {key v : Value} (h : get? d key = some v) :
    (key == key) = true := by
  by_cases hhas : d.Has key
  · obtain ⟨entry, _, hentry⟩ := hhas
    exact BEq.trans (BEq.symm hentry) hentry
  · rw [get?_of_not_has hhas] at h
    cases h

/-- Whatever the key, nil is read where nil is put in. -/
theorem Dictionary.get?_insert_none (key : Value) (d : Dictionary) :
    get? (insert key none d) key = none := by
  by_cases hself : (key == key) = true
  · exact get?_insert_self hself none d
  · refine get?_of_not_has fun ⟨entry, _, hentry⟩ => hself ?_
    exact BEq.trans (BEq.symm hentry) hentry

/-- The composites that a dictionary holds stay as they are if those of a value do. -/
theorem Dictionary.entryHandles_insert {d : Dictionary} {key v : Value} {value : Option Value}
    (hget : get? d key = some v) (hhandles : Value.optionHandles value = v.handles) :
    Value.entryHandles (insert key value d) = Value.entryHandles d := by
  induction d with
  | nil => cases hget
  | cons entry rest ih =>
    rw [get?, List.find?_cons] at hget
    rw [insert]
    cases hentry : entry.1 == key with
    | true =>
      rw [hentry] at hget
      have hvalue : entry.2 = some v := hget
      obtain ⟨held, old⟩ := entry
      subst hvalue
      rw [if_pos rfl, Value.entryHandles, Value.entryHandles, hhandles, Value.optionHandles]
    | false =>
      rw [hentry] at hget
      rw [if_neg Bool.false_ne_true, Value.entryHandles, Value.entryHandles, ih hget]

namespace Run

variable {r : Rules} {m m' : Machine} {node : Node} {place : Place} {value : Option Value}

/-- Writing to a place is writing to the member that it is in. -/
theorem writePlace_eq_root (hthere : place.isEntry = true → m.placeExists place = true)
    (value : Option Value) :
    (writePlace r node place value).outcome m =
    (writePlace r node place.root (m.filled place value)).outcome m := by
  induction place generalizing value with
  | member _ _ _ => rfl
  | entry base key ih =>
    obtain ⟨entries, hbase⟩ := exists_dictionary_of_placeExists (hthere rfl)
    rw [writePlace, outcome_get_bind, hbase, Machine.filled, hbase]
    exact ih (placeExists_of_isEntry hbase) _

/-- If the member that a place is in holds what was written to it, the place holds
    what was written to it. -/
theorem readPlace_of_root (hthere : place.isEntry = true → m.placeExists place = true)
    (hheld : value = none ∨ place.isEntry = false ∨ ∃ v, m.readPlace place = some v)
    (hroot : m'.readPlace place.root = m.filled place value) : m'.readPlace place = value := by
  induction place generalizing value with
  | member _ _ _ => exact hroot
  | entry base key ih =>
    obtain ⟨entries, hbase⟩ := exists_dictionary_of_placeExists (hthere rfl)
    rw [Machine.filled, hbase] at hroot
    have hread := ih (placeExists_of_isEntry hbase) (Or.inr (Or.inr ⟨_, hbase⟩)) hroot
    rw [Machine.readPlace, hread]
    rcases hheld with rfl | hmember | ⟨v, hv⟩
    · exact Dictionary.get?_insert_none key entries
    · cases hmember
    · rw [Machine.readPlace, hbase] at hv
      exact Dictionary.get?_insert_self (Dictionary.beq_self_of_get? hv) value entries

/-- If the value in a place and the one that is written hold the same composites, so
    do those of the member. -/
theorem optionHandles_filled {v : Value} (hread : m.readPlace place = some v)
    (hhandles : Value.optionHandles value = v.handles) :
    Value.optionHandles (m.filled place value) = Value.optionHandles (m.readPlace place.root) := by
  induction place generalizing value v with
  | member composite identifier internal =>
      rw [Machine.filled, Place.root, hread, hhandles, Value.optionHandles]
  | entry base key ih =>
    obtain ⟨entries, hbase⟩ := exists_dictionary_of_placeExists (placeExists_of_readPlace hread)
    rw [Machine.readPlace, hbase] at hread
    rw [Machine.filled, hbase]
    refine ih hbase ?_
    rw [Value.optionHandles, Value.handles, Value.handles]
    exact Dictionary.entryHandles_insert hread hhandles

end Run

/-! ## Writing -/

namespace Machine

variable {m : Machine} {place : Place}

/-- The root of a place is the member that the place is in. -/
theorem exists_root_eq (place : Place) :
    ∃ composite internal, place.root = .member composite place.name internal ∧
    ∀ m : Machine, m.rootOf? place = m.placeMember? composite place.name internal := by
  induction place with
  | member composite _ internal => exact ⟨composite, internal, rfl, fun _ => rfl⟩
  | entry base _ ih => exact ih

theorem readPlace_root (m : Machine) (place : Place) :
    m.readPlace place.root = (m.rootOf? place).bind (·.overload.value) := by
  obtain ⟨composite, internal, hroot, hrootOf⟩ := exists_root_eq place
  rw [hroot, readPlace, hrootOf]

/-- The dictionaries on the way to an entry begin with one in a member. -/
theorem exists_dictionary_root {entries : Dictionary}
    (h : m.readPlace place = some (.dictionary entries)) :
    ∃ entries, m.readPlace place.root = some (.dictionary entries) := by
  induction place generalizing entries with
  | member _ _ _ => exact ⟨entries, h⟩
  | entry base key ih =>
    obtain ⟨outer, hbase⟩ := exists_dictionary_of_placeExists (placeExists_of_readPlace h)
    exact ih hbase

/-- A place that is there is in a member that can be written. -/
theorem exists_root_of_placeExists (h : m.placeExists place = true) :
    ∃ resolved index, m.rootOf? place = some resolved ∧ resolved.index = some index := by
  cases place with
  | member composite identifier internal =>
    rw [placeExists] at h
    obtain ⟨index, hindex⟩ := Option.isSome_iff_exists.mp h
    obtain ⟨resolved, hmember, hindex⟩ := Option.bind_eq_some_iff.mp hindex
    exact ⟨resolved, index, hmember, hindex⟩
  | entry base key =>
    obtain ⟨_, hbase⟩ := exists_dictionary_of_placeExists h
    obtain ⟨entries, hroot⟩ := exists_dictionary_root hbase
    rw [readPlace_root] at hroot
    obtain ⟨resolved, hresolved, hvalue⟩ := Option.bind_eq_some_iff.mp hroot
    cases hindex : resolved.index with
    | some index => exact ⟨resolved, index, hresolved, hindex⟩
    | none =>
      -- a composite that stands for itself is no dictionary
      obtain ⟨composite, internal, _, hrootOf⟩ := exists_root_eq base
      rw [hrootOf] at hresolved
      obtain ⟨_, _, _, hanswer⟩ := Lookup.exists_answer_of_find? hresolved
      obtain ⟨_, ⟨_, target, hreference⟩ | ⟨_, hplace, _⟩⟩ := Lookup.answer_eq_found hanswer
      · cases hvalue.symm.trans hreference
      · cases hindex.symm.trans hplace

end Machine

namespace Run

variable {depth : Nat} {r : Rules} {m m' : Machine} {node : Node} {place : Place}
  {value : Option Value}

/-- Between two equal lists there is nothing to settle. -/
theorem reconcile_self (r : Rules) (h : Handle) (handles : List Handle) (m : Machine) :
    reconcile r h handles handles m = .ok ((), m) := by
  have hnone : missingFrom handles handles = [] :=
    List.eq_nil_iff_forall_not_mem.mpr fun _ hx =>
      (Composite.mem_missingFrom.mp hx).2 (Composite.mem_missingFrom.mp hx).1
  rw [reconcile, hnone]
  rfl

/-- An overload that gets a value with the composites of the old one is put back,
    and that is all. -/
theorem setMember_same_handles {owner : Handle} {c : Composite} {name : String} {index : Nat}
    {overload : Overload} (hget : m.store.get? owner = some c)
    (hoverload : (m.store.overloads owner name)[index]? = some overload)
    (hhandles : Value.optionHandles value = Value.optionHandles overload.value) :
    setMember r owner name { overload with value } (.replace owner (some index)) m =
      .ok (some owner, { m with store := m.store.modify owner (Composite.putMember name
        ((m.store.overloads owner name).set index { overload with value })) }) := by
  have hreferences : ({ overload with value } : Overload).references = overload.references := by
    rw [Overload.references, Overload.references, hhandles]
  rw [setMember]
  dsimp only [Placement.target]
  rw [store_bind_apply, hget]
  dsimp only
  rw [← Store.overloads_of_get? hget, placeOverload_of_getElem? hoverload, hreferences]
  refine bind_of_ok rfl (bind_of_ok (reconcile_self r owner overload.references _) rfl)

theorem outcome_bind_halt {α β : Type} {x : Flow α} {f : α → Flow β} {halt : Halt}
    (hx : x.outcome m = .error halt) : (x >>= f).outcome m = .error halt := by
  change (x.outcome m >>= fun p => ExceptT.bindCont f p.1 p.2) = _
  rw [hx]
  rfl

theorem outcome_lift_halt {α : Type} {y : Run α} {halt : Halt} (hy : y m = .error halt) :
    (liftM y : Flow α).outcome m = .error halt := by
  change (y m >>= fun p => (pure (.ok p.1) : Run (Except Unwind α)) p.2) = _
  rw [hy]
  rfl

/-- Without observers, writing to a member is setting it. -/
theorem outcome_writeMember {resolved : Resolved} {name : String} {index : Nat} (node : Node)
    (hindex : resolved.index = some index) (hobservers : resolved.overload.observers = []) :
    (writeMember r node resolved name value).outcome m =
      (setMember r resolved.owner name { resolved.overload with value }
        (.replace resolved.owner (some index)) m).map
        fun p => (.ok true, p.2) := by
  have hnothing (name : String) (value : Option Value) (m : Machine) :
      (runObservers r node resolved.overload.observers name value).outcome m = .ok (.ok (), m) := by
    rw [hobservers]
    rfl
  rw [writeMember, hindex]
  refine (outcome_bind_ok (hnothing _ _ m)).trans ?_
  cases hset : setMember r resolved.owner name { resolved.overload with value }
      (.replace resolved.owner (some index)) m with
  | ok p =>
    refine (outcome_bind_ok (outcome_lift hset)).trans ?_
    exact (outcome_bind_ok (hnothing _ _ p.2)).trans rfl
  | error halt => exact outcome_bind_halt (outcome_lift_halt hset)

/-- A member that is found stands where its index says. -/
theorem exists_overload_of_member {h : Handle} {name : String} {internal : Bool}
    {resolved : Resolved} {index : Nat} (hmember : m.placeMember? h name internal = some resolved)
    (hindex : resolved.index = some index) : ∃ c, m.store.get? resolved.owner = some c ∧
      (m.store.overloads resolved.owner name)[index]? = some resolved.overload := by
  obtain ⟨owner, c, hget, hanswer⟩ := Lookup.exists_answer_of_find? hmember
  change m.store.get? owner = some c at hget
  obtain ⟨rfl, ⟨hnone, _⟩ | ⟨place, hplace, _, hoverload⟩⟩ := Lookup.answer_eq_found hanswer
  · cases hindex.symm.trans hnone
  · obtain rfl : place = index := Option.some.inj (hplace.symm.trans hindex)
    exact ⟨c, hget, by rwa [Store.overloads_of_get? hget]⟩

variable (hthere : m.placeExists place = true)
  (hobservers : ∀ resolved, m.rootOf? place = some resolved → resolved.overload.observers = [])

include hthere hobservers

/-- Where there is something to write to and no observer, writing is setting the member that the
    place is in. -/
theorem outcome_writePlace (node : Node) :
    ∃ resolved index c, m.rootOf? place = some resolved ∧ resolved.index = some index ∧
      m.store.get? resolved.owner = some c ∧
      (m.store.overloads resolved.owner place.name)[index]? = some resolved.overload ∧
      ∀ value, (writePlace r node place value).outcome m =
        (setMember r resolved.owner place.name { resolved.overload with
          value := m.filled place value }
          (.replace resolved.owner (some index)) m).map fun p => (.ok true, p.2) := by
  obtain ⟨resolved, index, hroot, hindex⟩ := exists_root_of_placeExists hthere
  obtain ⟨composite, internal, hplace, hrootOf⟩ := exists_root_eq place
  have hmember := (hrootOf m).symm.trans hroot
  obtain ⟨c, hget, hoverload⟩ := exists_overload_of_member hmember hindex
  refine ⟨resolved, index, c, hroot, hindex, hget, hoverload, fun value => ?_⟩
  rw [writePlace_eq_root (fun _ => hthere), hplace, writePlace, outcome_get_bind, hmember]
  exact outcome_writeMember node hindex (hobservers resolved hroot)

/-- A write that leaves the composites that are held as they are comes to its end, reports nothing
    and ends no life. -/
theorem writePlace_ends {v : Value} (node : Node) (hread : m.readPlace place = some v)
    (hhandles : Value.optionHandles value = v.handles) :
    ∃ m', (writePlace r node place value).outcome m = .ok (.ok true, m') ∧ m'.reports = m.reports ∧
      ∀ h, m'.store.contains h = m.store.contains h := by
  obtain ⟨resolved, index, c, hroot, _, hget, hoverload, hwrite⟩ :=
    outcome_writePlace (r := r) hthere hobservers node
  have hsame : Value.optionHandles (m.filled place value) =
    Value.optionHandles resolved.overload.value := by
    rw [optionHandles_filled hread hhandles, readPlace_root, hroot]
    rfl
  have hset := setMember_same_handles (r := r) hget hoverload hsame
  refine ⟨_, (hwrite value).trans (congrArg (Except.map _) hset), rfl, fun h => ?_⟩
  exact Store.contains_modify ..

/-- A write that comes to its end has written. -/
theorem writePlace_true {x : Except Unwind Bool}
    (hrun : (writePlace r node place value).outcome m = .ok (x, m')) : x = .ok true := by
  obtain ⟨resolved, index, c, _, _, _, _, hwrite⟩ :=
    outcome_writePlace (r := r) hthere hobservers node
  rw [hwrite] at hrun
  cases hset : setMember r resolved.owner place.name { resolved.overload with
    value := m.filled place value }
      (.replace resolved.owner (some index)) m with
  | ok p =>
    rw [hset] at hrun
    cases hrun
    rfl
  | error halt =>
    rw [hset] at hrun
    cases hrun

/-- So assigning is writing. -/
theorem outcome_assign (node : Node) :
    (assign r node place value).outcome m =
      (do let _ ← writePlace r node place value; return value : Flow (Option Value)).outcome m := by
  rw [assign]
  cases hrun : (writePlace r node place value).outcome m with
  | ok p =>
    obtain ⟨x, m'⟩ := p
    obtain rfl := writePlace_true hthere hobservers hrun
    rw [outcome_bind_ok hrun, outcome_bind_ok hrun]
    rfl
  | error halt => rw [outcome_bind_halt hrun, outcome_bind_halt hrun]

end Run

/-! ## Failing -/

namespace Machine

/-- The state after an operator without a result was reported. -/
def failing (m : Machine) (node : Node) (symbol : String) (error : Arithmetic.Error) : Machine :=
  m.report (error.report symbol).1 (some node) (error.report symbol).2

/-- The function that an operator would call. -/
def operatorFunction? (m : Machine) (scope : Handle) (symbol : String)
    (arguments : List Argument) : Option Handle :=
  (m.lookup.find? scope symbol (.call arguments) false).bind (·.matching)

/-- A step up or down without a result, what is written for it and in which state: nil after a
    report, or the operand as it is. -/
inductive StepFails (m : Machine) (node : Node) (scope : Handle) (symbol : String)
    (value : Option Value) : Option Value → Machine → Prop where
  | reported {error : Arithmetic.Error}
      (hstep : Arithmetic.step value (if symbol == "++" then 1 else -1) = .error error)
      (herror : error ≠ .operands) :
      StepFails m node scope symbol value none (m.failing node symbol error)
  | passed (hstep : Arithmetic.step value (if symbol == "++" then 1 else -1) = .error .operands)
      (hfunction : m.operatorFunction? scope symbol [{ value }] = none) :
      StepFails m node scope symbol value value m

/-- An update without a result and without a function to call for it, up to the point where it
    writes: the state and the place that it comes to, what it writes there and what it will give. -/
inductive UpdateFails (r : Rules) (m : Machine) (node : Node) (scope : Handle) :
    Flow (Option Value) → Machine → Place → Option Value → Option Value → Prop where
  | compound {symbol arithmetic : String} {left right : Operation} {place : Place}
      {operand : Option Value}
      {error : Arithmetic.Error} {m₁ m₂ : Machine} (hsymbol : compound? symbol = some arithmetic)
      (hplace : (assigned r scope left).outcome m = .ok (.ok (some place), m₁))
      (hoperand : (operate r node scope right).outcome m₁ = .ok (.ok operand, m₂))
      (hfunction : m₂.operatorFunction? scope arithmetic [{ value := m₂.readPlace place },
        { value := operand }] = none)
      (hfails : Arithmetic.binary arithmetic (m₂.readPlace place) operand = .error error) :
      UpdateFails r m node scope (operate r node scope (.join symbol left right))
      (m₂.failing node arithmetic error)
        place none none
  | prefixed {operator : Option Node} {target : Node} {place : Place} {value written : Option Value}
      {m₁ m₂ m₃ : Machine} (hsymbol : isStep (symbolOf operator) = true)
      (hvalue : (r.eval target scope).outcome m = .ok (.ok value, m₁))
      (hfails : m₁.StepFails node scope (symbolOf operator) value written m₂)
      (hplace : (placeOf r scope target).outcome m₂ = .ok (.ok (some place), m₃)) :
      UpdateFails r m node scope (prefixed r node operator (some target) scope) m₃
      place written written
  | postfixed {operator : Option Node} {target : Node} {place : Place}
      {value written : Option Value}
      {m₁ m₂ m₃ : Machine} (hsymbol : isStep (symbolOf operator) = true)
      (hvalue : (r.eval target scope).outcome m = .ok (.ok value, m₁))
      (hfails : m₁.StepFails node scope (symbolOf operator) value written m₂)
      (hplace : (placeOf r scope target).outcome m₂ = .ok (.ok (some place), m₃)) :
      UpdateFails r m node scope (postfixed r node operator (some target) scope) m₃
      place written value

end Machine

namespace Run

variable {depth : Nat} {r : Rules} {m m₁ m' : Machine} {node : Node}
  {scope : Handle} {place : Place}
  {written result : Option Value}

theorem outcome_operatorFunction (scope : Handle) (symbol : String)
    (arguments : List Argument) (m : Machine) :
    (liftM (operatorFunction scope symbol arguments) : Flow (Option Handle)).outcome m =
      .ok (.ok (m.operatorFunction? scope symbol arguments), m) := rfl

theorem outcome_reportArithmetic (node : Node) (symbol : String)
    (error : Arithmetic.Error) (m : Machine) :
    (liftM (reportArithmetic node symbol error) : Flow Unit).outcome m =
      .ok (.ok (), m.failing node symbol error) := rfl

/-- Between operands that it fails for, an operator reports why and gives nil. -/
theorem outcome_applyBinary {symbol : String} {a b : Option Value} {error : Arithmetic.Error}
    (hfunction : m.operatorFunction? scope symbol [{ value := a }, { value := b }] = none)
    (hfails : Arithmetic.binary symbol a b = .error error) :
    (applyBinary r node symbol a b scope).outcome m =
      .ok (.ok none, m.failing node symbol error) := by
  rw [applyBinary]
  refine (outcome_bind_ok (outcome_operatorFunction ..)).trans ?_
  rw [hfunction, hfails]
  exact outcome_bind_ok (outcome_reportArithmetic ..)

/-- A step that fails gives what it writes. -/
theorem outcome_stepOperand {symbol : String} {value : Option Value} (r : Rules)
    (h : m.StepFails node scope symbol value written m₁) :
    (stepOperand r node symbol value scope).outcome m = .ok (.ok written, m₁) := by
  rw [stepOperand]
  cases h with
  | @reported error hstep herror =>
    rw [hstep]
    cases error with
    | operands => exact absurd rfl herror
    | _ => exact outcome_bind_ok (outcome_reportArithmetic ..)
  | passed hstep hfunction =>
    rw [hstep]
    change (applyUnary r node symbol written scope).outcome m = _
    rw [applyUnary]
    cases hvalue : written.isNone with
    | true =>
      obtain rfl := Option.isNone_iff_eq_none.mp hvalue
      rfl
    | false =>
      refine (outcome_bind_ok (outcome_operatorFunction ..)).trans ?_
      rw [hfunction]
      rfl

/-- A compound assignment that fails gets to its assignment with nil. -/
theorem outcome_operate_compound {symbol arithmetic : String} {left right : Operation}
    {operand : Option Value}
    {error : Arithmetic.Error} {m₂ : Machine} (hsymbol : compound? symbol = some arithmetic)
    (hplace : (assigned r scope left).outcome m = .ok (.ok (some place), m₁))
    (hoperand : (operate r node scope right).outcome m₁ = .ok (.ok operand, m₂))
    (hfunction : m₂.operatorFunction? scope arithmetic [{ value := m₂.readPlace place },
      { value := operand }] = none)
    (hfails : Arithmetic.binary arithmetic (m₂.readPlace place) operand = .error error) :
    (operate r node scope (.join symbol left right)).outcome m =
      (assign r node place none).outcome (m₂.failing node arithmetic error) := by
  have hassignment : isAssignment symbol = true := by
    rw [isAssignment, hsymbol]
    exact Bool.or_true _
  rw [operate, if_pos hassignment]
  refine (outcome_bind_ok hplace).trans ?_
  refine (outcome_bind_ok hoperand).trans ?_
  rw [hsymbol]
  refine (outcome_get_bind _ m₂).trans ?_
  exact outcome_bind_ok (outcome_applyBinary hfunction hfails)

section Steps

variable {operator : Option Node} {target : Node} {value : Option Value} {m₂ : Machine}
  (hsymbol : isStep (symbolOf operator) = true)
  (hvalue : (r.eval target scope).outcome m = .ok (.ok value, m₁))
  (hfails : m₁.StepFails node scope (symbolOf operator) value written m₂)

include hsymbol hvalue hfails

/-- A step that fails gets to writing back. -/
theorem outcome_prefixed : (prefixed r node operator (some target) scope).outcome m =
    (do writeBack r node (some target) written scope; return written : Flow (Option Value)).outcome
      m₂ := by
  have hne : ∀ other ∈ ["!", "+", "-"], (symbolOf operator == other) = false := by
    intro other hother
    rw [isStep, Bool.or_eq_true, beq_iff_eq, beq_iff_eq] at hsymbol
    rcases hsymbol with h | h <;> rw [h] <;> revert other <;> decide
  rw [prefixed]
  refine (outcome_bind_ok hvalue).trans ?_
  rw [hne "!" (by decide), hne "+" (by decide), hne "-" (by decide), Bool.false_and,
    if_neg Bool.false_ne_true, if_neg Bool.false_ne_true, if_neg Bool.false_ne_true, if_pos hsymbol]
  exact outcome_bind_ok (outcome_stepOperand r hfails)

theorem outcome_postfixed : (postfixed r node operator (some target) scope).outcome m =
    (do writeBack r node (some target) written scope; return value : Flow (Option Value)).outcome
      m₂ := by
  rw [postfixed]
  refine (outcome_bind_ok hvalue).trans ?_
  rw [if_pos hsymbol]
  exact outcome_bind_ok (outcome_stepOperand r hfails)

end Steps

/-- A step is written back to its operand. -/
theorem outcome_writeBack {target : Node} {value : Option Value} (result : Option Value)
    (hplace : (placeOf r scope target).outcome m = .ok (.ok (some place), m₁)) :
    (do writeBack r node (some target) value scope; return result : Flow (Option Value)).outcome m =
      (do let _ ← writePlace r node place value; return result : Flow (Option Value)).outcome
        m₁ := by
  rw [writeBack, bind_assoc]
  refine (outcome_bind_ok hplace).trans ?_
  exact congrArg (Flow.outcome · m₁) (bind_assoc (writePlace r node place value) _ _)

/-- An update that fails does nothing more than write. -/
theorem outcome_of_updateFails {update : Flow (Option Value)}
    (hfails : m.UpdateFails r node scope update m₁ place written result)
    (hthere : m₁.placeExists place = true)
    (hobservers : ∀ resolved, m₁.rootOf? place = some resolved → resolved.overload.observers = []) :
    update.outcome m =
      (do let _ ← writePlace r node place written; return result : Flow (Option Value)).outcome
        m₁ := by
  cases hfails with
  | compound hsymbol hplace hoperand hfunction hfails =>
    rw [outcome_operate_compound hsymbol hplace hoperand hfunction hfails]
    exact outcome_assign hthere hobservers node
  | prefixed hsymbol hvalue hfails hplace =>
    rw [outcome_prefixed hsymbol hvalue hfails]
    exact outcome_writeBack _ hplace
  | postfixed hsymbol hvalue hfails hplace =>
    rw [outcome_postfixed hsymbol hvalue hfails]
    exact outcome_writeBack _ hplace

variable (hthere : m.placeExists place = true)
  (hobservers : ∀ resolved, m.rootOf? place = some resolved → resolved.overload.observers = [])

include hthere hobservers

/-- A write with a value given after it comes to its end only by writing, and then
    gives the value. -/
theorem writePlace_of_return {x : Except Unwind (Option Value)}
    (hrun : (do let _ ← writePlace r node place written; return result :
    Flow (Option Value)).outcome m = .ok (x, m')) :
    x = .ok result ∧ (writePlace r node place written).outcome m = .ok (.ok true, m') := by
  cases hwrite : (writePlace r node place written).outcome m with
  | ok p =>
    obtain ⟨y, m₁⟩ := p
    obtain rfl := writePlace_true hthere hobservers hwrite
    rw [outcome_bind_ok hwrite] at hrun
    cases hrun
    exact ⟨rfl, rfl⟩
  | error halt =>
    rw [outcome_bind_halt hwrite] at hrun
    cases hrun

/-- A write that ends no life puts one overload back and leaves all others.  Nil is read then,
    unless the member has other overloads; and what a place held is read if it is
    what was written. -/
theorem writePlace_puts
    (hrun : (writePlace (rules depth) node place written).outcome m = .ok (.ok true, m'))
    (hspared : ∀ h, m.store.contains h = true → m'.store.contains h = true) :
    ∃ resolved index, m.rootOf? place = some resolved ∧ resolved.index = some index ∧
      (∀ h name, m'.store.overloads h name = if h = resolved.owner ∧ name = place.name then
        (m.store.overloads resolved.owner place.name).set index
          { resolved.overload with value := m.filled place written }
      else m.store.overloads h name) ∧
      (written = none → place.isEntry = true ∨
        (m.store.overloads resolved.owner place.name).length = 1 → m'.readPlace place = none) ∧
      (written.isSome = true → m.readPlace place = written → m'.readPlace place = written) := by
  obtain ⟨composite, internal, hplace, hrootOf⟩ := exists_root_eq place
  rw [writePlace_eq_root (fun _ => hthere), hplace] at hrun
  rw [hrootOf] at hobservers ⊢
  obtain ⟨resolved, index, hroot, hindex, _, hread, hothers⟩ :=
    writePlace_member_puts hrun hobservers hspared
  rw [← hplace] at hread
  refine ⟨resolved, index, hroot, hindex, hothers, fun hnone hsingle => ?_, fun hsome hsame => ?_⟩
  · refine (readPlace_of_root (fun _ => hthere) (.inl hnone) (hread ?_)).trans hnone
    exact hsingle.imp (fun hentry => isSome_filled (fun _ => hthere) (.inr hentry)) id
  · refine readPlace_of_root (fun _ => hthere) (.inr (.inr ?_)) (hread (.inl ?_))
    · exact Option.isSome_iff_exists.mp (hsame ▸ hsome)
    · exact isSome_filled (fun _ => hthere) (.inl hsome)

end Run

/-- A compound assignment or step whose operation fails, with no function to call for it, on a place
    that is there and has no observers: it writes nil after its report, or the operand of a step as
    it is, and does nothing else.  If the composites that the place holds stay the same, the write
    comes to its end.  If no life ends, the place then reads nil, unless its member has other
    overloads, or as before. -/
theorem failed_update_writes {depth : Nat} {m m₁ : Machine} {node : Node} {scope : Handle}
    {update : Flow (Option Value)} {place : Place} {written result : Option Value}
    (hfails : m.UpdateFails (rules depth) node scope update m₁ place written result)
    (hthere : m₁.placeExists place = true)
    (hobservers : ∀ resolved, m₁.rootOf? place = some resolved → resolved.overload.observers = []) :
    update.outcome m =
      (do let _ ← writePlace (rules depth) node place written; return result :
        Flow (Option Value)).outcome m₁ ∧
    (∀ v, m₁.readPlace place = some v → Value.optionHandles written = v.handles →
      ∃ m', update.outcome m = .ok (.ok result, m') ∧ m'.reports = m₁.reports ∧
        ∀ h, m'.store.contains h = m₁.store.contains h) ∧
    ∀ x m', update.outcome m = .ok (x, m') →
      (∀ h, m₁.store.contains h = true → m'.store.contains h = true) →
      x = .ok result ∧ ∃ resolved index,
        m₁.rootOf? place = some resolved ∧ resolved.index = some index ∧
        (∀ h name, m'.store.overloads h name = if h = resolved.owner ∧ name = place.name then
          (m₁.store.overloads resolved.owner place.name).set index
            { resolved.overload with value := m₁.filled place written }
        else m₁.store.overloads h name) ∧
        (written = none → place.isEntry = true ∨
          (m₁.store.overloads resolved.owner place.name).length = 1 → m'.readPlace place = none) ∧
        (written.isSome = true → m₁.readPlace place = written → m'.readPlace place = written) := by
  have hupdate := outcome_of_updateFails hfails hthere hobservers
  refine ⟨hupdate, fun v hread hhandles => ?_, fun x m' hrun hspared => ?_⟩
  · obtain ⟨m', hwrite, hends⟩ := writePlace_ends hthere hobservers node hread hhandles
    exact ⟨m', hupdate.trans (outcome_bind_ok hwrite), hends⟩
  · obtain ⟨hx, hwrite⟩ := writePlace_of_return hthere hobservers (hupdate.symm.trans hrun)
    exact ⟨hx, writePlace_puts hthere hobservers hwrite hspared⟩

namespace Sketch

/-- The entry under `a` of the entry under 1 of `x`. -/
def innermostEntry : Node :=
  .bare (.subscript (some (.bare (.subscript (some (named "x")) [] [number 1] none))) []
    [.bare (.stringSegment "a")] none)

def updating (target : Node) (symbol : String) (operand : Node) : Node :=
  .bare (.sequence [target, .bare (.operator .between symbol), operand])

/-- A module that gives `x` a value, updates it and prints it. -/
def printingUpdated (value update : Node) : Node :=
  .bare (.module [variableNamed "x" value, update, calling "print" [named "x"]])

end Sketch

/-- An entry of an entry is divided by zero, and is nil then. -/
theorem failed_update_writes_innermost :
    let node := updating innermostEntry "/=" (number 0)
    ∃ m', (operate (rules 9) node ⟨1, 0⟩
        (.join "/=" (.operand innermostEntry) (.operand (number 0)))).outcome nested =
          .ok (.ok none, m') ∧
      nested.readPlace innermost = some (.integer 0) ∧ m'.readPlace innermost = none ∧
      m'.reports.entries.toList.map (·.string) = ["expressionsSequence -> Division by zero."] := by
  intro node
  have hread : nested.readPlace innermost = some (.integer 0) := rfl
  have hoperand : (operate (rules 9) node ⟨1, 0⟩ (.operand (number 0))).outcome nested =
      .ok (.ok (some (.integer 0)), nested) := rfl
  have hfails : nested.UpdateFails (rules 9) node ⟨1, 0⟩
      (operate (rules 9) node ⟨1, 0⟩ (.join "/=" (.operand innermostEntry) (.operand (number 0))))
      (nested.failing node "/" .divisionByZero) innermost none none :=
    .compound rfl rfl hoperand (by decide +kernel) (by rw [hread]; rfl)
  have hobservers : ((nested.failing node "/" .divisionByZero).rootOf? innermost).map
      (·.overload.observers) = some [] := by decide +kernel
  obtain ⟨resolved, hresolved, hnone⟩ := Option.map_eq_some_iff.mp hobservers
  obtain ⟨_, hends, hreads⟩ := failed_update_writes hfails (by decide +kernel)
    fun other hother => by rwa [← Option.some.inj (hresolved.symm.trans hother)]
  obtain ⟨m', hrun, hreports, hcontains⟩ := hends _ hread rfl
  obtain ⟨_, _, _, _, _, _, hnil, _⟩ := hreads _ m' hrun fun h hthere => (hcontains h).trans hthere
  refine ⟨m', hrun, hread, hnil rfl (.inl rfl), ?_⟩
  rw [hreports]
  decide +kernel

/-- A division by zero is reported and takes the value from its target; a string that is counted up
    is not reported, and keeps its value. -/
theorem division_by_zero_clears :
    reported (printingUpdated (number 1) (updating (named "x") "/=" (number 0))) =
        some ["expressionsSequence -> Division by zero.", "nil"] ∧
      reported (printingUpdated (.bare (.stringSegment "a"))
        (.bare (.postfixed (some (.bare (.operator .after "++"))) (some (named "x"))))) =
          some ["a"] := by
  decide +kernel

end CompositeGraph
