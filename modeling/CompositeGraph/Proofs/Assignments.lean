/-
  ASSIGNMENTS: what is written is read.

  A place is a member of a composite, or an entry of a dictionary in a place.  Writing to one puts
  back a single overload, and reading looks the member up again; unless a life ends meanwhile, the
  second lookup comes to the same overload as the first.

  A declaration is read back only so far.  It takes the place of the first overload of its name,
  while the last one with a value is read: what stands behind it hides it.

    1. PLACES.     The member that a place is in, and the keys on the way to the place.
    2. WRITING.    What is written to a place is read from it, and nothing else changes.
    3. DECLARING.  What a name stands for after a variable of that name is declared.
-/
import CompositeGraph.Proofs.Equality
import CompositeGraph.Proofs.NilBases
import CompositeGraph.Proofs.Resemblance

namespace CompositeGraph

open Run Sketch

/-! ## Places -/

namespace Place

/-- The name of the member that a place is in. -/
def name : Place → String
  | .member _ identifier _ => identifier
  | .entry base _ => base.name

/-- The keys on the way to a place, the innermost first. -/
def keys : Place → List Value
  | .member _ _ _ => []
  | .entry base key => key :: base.keys

def isEntry : Place → Bool
  | .member _ _ _ => false
  | .entry _ _ => true

end Place

/-- The member that a place is in. -/
def Machine.rootOf? (m : Machine) : Place → Option Resolved
  | .member composite identifier internal => m.placeMember? composite identifier internal
  | .entry base _ => m.rootOf? base

/-! ## Writing -/

namespace Run

variable {depth : Nat} {m m' : Machine} {node : Node}

/-- A run within a flow. -/
theorem exists_run_of_lift {α : Type} {x : Run α} {a : α}
    (h : (liftM x : Flow α).outcome m = .ok (.ok a, m')) : x m = .ok (a, m') := by
  change (x m >>= fun p => Except.ok (Except.ok p.1, p.2)) = _ at h
  obtain ⟨p, hx, hp⟩ := exists_of_bind_eq_ok h
  cases hp
  exact hx

/-- Without observers, writing to a member is putting its overload back with another value. -/
theorem setMember_of_writeMember {r : Rules} {resolved : Resolved} {identifier : String}
    {value : Option Value}
    (hrun : (writeMember r node resolved identifier value).outcome m = .ok (.ok true, m'))
    (hobservers : resolved.overload.observers = []) :
    ∃ index result, resolved.index = some index ∧
      setMember r resolved.owner identifier { resolved.overload with value }
        (.replace resolved.owner (some index)) m =
        .ok (result, m') := by
  unfold writeMember at hrun
  cases hindex : resolved.index with
  | none =>
    rw [hindex] at hrun
    cases hrun
  | some index =>
    rw [hindex, hobservers] at hrun
    obtain ⟨_, _, hwill, hrun⟩ := exists_ok_of_bind hrun
    obtain ⟨result, _, hset, hrun⟩ := exists_ok_of_bind hrun
    obtain ⟨_, _, hdid, hreturn⟩ := exists_ok_of_bind hrun
    cases hwill
    cases hdid
    cases hreturn
    exact ⟨index, result, rfl, exists_run_of_lift hset⟩

variable {place : Place} {value : Option Value} {h : Handle} {identifier : String} {internal : Bool}

/-- Where an overload stands, another one takes its place. -/
theorem placeOverload_of_getElem? {overloads : List Overload} {index : Nat} {old : Overload}
    (hold : overloads[index]? = some old) (overload : Overload) :
    placeOverload overload (some index) overloads = (some old, overloads.set index overload) := by
  rw [placeOverload, Option.bind_some, hold]
  rfl

theorem outcome_get_bind {α : Type} (f : Machine → Flow α) (m : Machine) :
    ((get : Flow Machine) >>= f).outcome m = (f m).outcome m := rfl

/-- A write to a member that ends no life replaces one overload, and the lookup
    comes to it again. -/
theorem writePlace_member_puts
    (hrun : (writePlace (rules depth) node (.member h identifier internal) value).outcome m =
      .ok (.ok true, m'))
    (hobservers : ∀ resolved, m.placeMember? h identifier internal = some resolved →
      resolved.overload.observers = [])
    (hspared : ∀ x, m.store.contains x = true → m'.store.contains x = true) :
    ∃ resolved index, m.placeMember? h identifier internal = some resolved ∧
      resolved.index = some index ∧
      (m.store.overloads resolved.owner identifier)[index]? = some resolved.overload ∧
      (value.isSome = true ∨ (m.store.overloads resolved.owner identifier).length = 1 →
        m'.readPlace (.member h identifier internal) = value) ∧
      ∀ x name, m'.store.overloads x name = if x = resolved.owner ∧ name = identifier then
        (m.store.overloads resolved.owner identifier).set index { resolved.overload with value }
      else m.store.overloads x name := by
  rw [writePlace, outcome_get_bind] at hrun
  cases hmember : m.placeMember? h identifier internal with
  | none =>
    rw [hmember] at hrun
    cases hrun
  | some resolved =>
    rw [hmember] at hrun
    obtain ⟨index, result, hindex, hset⟩ :=
      setMember_of_writeMember hrun (hobservers resolved hmember)
    obtain ⟨owner, c, hget, hanswer⟩ := Lookup.exists_answer_of_find? hmember
    change m.store.get? owner = some c at hget
    obtain ⟨rfl, ⟨hnone, _⟩ | ⟨place, hplace, _, hoverload⟩⟩ := Lookup.answer_eq_found hanswer
    · rw [hindex] at hnone
      cases hnone
    obtain rfl : place = index := Option.some.inj (hplace.symm.trans hindex)
    rw [← Store.overloads_of_get? hget] at hoverload
    have hput := setMember_resembles hset rfl hget hspared
    rw [placeOverload_of_getElem? hoverload] at hput
    -- The lookup that reads goes the way of the one that wrote.
    refine ⟨resolved, place, rfl, hindex, hoverload, fun hvalue => ?_, fun x name => ?_⟩
    · have hmirrors : Lookup.Mirrors (Resolved.holding resolved.owner value) identifier .property
        m.lookup m'.lookup :=
        Lookup.mirrors_of_put hget hanswer hindex hvalue hput
      have hfind := hmirrors.find? h internal
      rw [Machine.readPlace, Machine.placeMember?, hfind]
      rw [Machine.placeMember?] at hmember
      rw [hmember, Option.map_some, Resolved.holding, if_pos ⟨rfl, by rw [hindex]; rfl⟩]
      rfl
    · rw [hput.overloads, Store.overloads_putMember hget]

end Run

/-- What is written to a place is read from it, if the write runs no observers and ends no life and
    no key on the way to the place holds a NaN; nil is read back unless the member has other
    overloads.  All other overloads stay as they were. -/
theorem readPlace_writePlace {depth : Nat} {m m' : Machine} {node : Node} {place : Place}
    {value : Option Value}
    (hrun : (writePlace (rules depth) node place value).outcome m = .ok (.ok true, m'))
    (hobservers : ∀ resolved, m.rootOf? place = some resolved → resolved.overload.observers = [])
    (hspared : ∀ h, m.store.contains h = true → m'.store.contains h = true)
    (hkeys : ∀ key ∈ place.keys, key.NaNFree) :
    ∃ resolved index, m.rootOf? place = some resolved ∧ resolved.index = some index ∧
      (m.store.overloads resolved.owner place.name)[index]? = some resolved.overload ∧
      (value.isSome = true ∨ place.isEntry = true ∨
        (m.store.overloads resolved.owner place.name).length = 1 → m'.readPlace place = value) ∧
      (∃ held, (m'.store.overloads resolved.owner place.name)[index]? =
        some { resolved.overload with value := held }) ∧
      ∀ h name i, (h, name, i) ≠ (resolved.owner, place.name, index) →
        (m'.store.overloads h name)[i]? = (m.store.overloads h name)[i]? := by
  -- The induction is on the place.  An entry is written by writing its dictionary to the place
  -- around it, so what is written there is never nil, whatever the entry gets.
  induction place generalizing value with
  | member h identifier internal =>
    obtain ⟨resolved, index, hroot, hindex, hoverload, hread, hothers⟩ :=
      writePlace_member_puts hrun hobservers hspared
    have hlt := (List.getElem?_eq_some_iff.mp hoverload).1
    refine ⟨resolved, index, hroot, hindex, hoverload, ?_, ⟨value, ?_⟩, fun x name i hne => ?_⟩
    · rintro (hvalue | hentry | hsingle)
      · exact hread (Or.inl hvalue)
      · cases hentry
      · exact hread (Or.inr hsingle)
    · rw [hothers, if_pos ⟨rfl, rfl⟩]
      exact List.getElem?_set_self hlt
    · rw [hothers]
      split
      · rename_i hsame
        obtain ⟨rfl, rfl⟩ := hsame
        exact List.getElem?_set_ne fun hi => hne (by rw [hi]; rfl)
      · rfl
  | entry base key ih =>
    rw [writePlace, outcome_get_bind] at hrun
    obtain ⟨hkey, hkeys⟩ := List.forall_mem_cons.mp hkeys
    cases hbase : m.readPlace base with
    | none =>
      rw [hbase] at hrun
      cases hrun
    | some held =>
      rw [hbase] at hrun
      cases held with
      | dictionary entries =>
        obtain ⟨resolved, index, hroot, hindex, hoverload, hread, hothers⟩ :=
          ih hrun hobservers hkeys
        refine ⟨resolved, index, hroot, hindex, hoverload, fun _ => ?_, hothers⟩
        rw [Machine.readPlace, hread (Or.inl rfl)]
        exact Dictionary.get?_insert_self (Value.same_self key hkey) value entries
      | _ => cases hrun

namespace Sketch

def holding (value : Option Value) : Overload := { type := .empty, value }

/-- The outermost namespace with overloads of `x`, and a namespace in it. -/
def sheltering (overloads : List Overload) : Machine :=
  let space (title : String) (scope : Option Handle) : Composite :=
    { Composite.fresh (some title) (.ofKind .namespace) with links := { scope } }
  { store := ⟨#[⟨0, some { space "Global" none with members := Assoc.empty.put "x" overloads }⟩,
      ⟨0, some (space "Local" (some ⟨0, 0⟩))⟩]⟩ }

def number (value : Int64) : Node := .bare (.literal .integer (.integer value))

def declaring (name : String) (value : Int64) : Node :=
  .bare (.declarator (some (named name)) none (some (number value)) none)

/-- The second overload holds a dictionary with another one under 1. -/
def nested : Machine := sheltering
  [holding (some (.integer 7)),
    holding (some
      (.dictionary [(.integer 1, some (.dictionary [(.string "a", some (.integer 0))]))])),
    holding none]

/-- The entry under `a` in the inner dictionary, as it is seen from the inner namespace. -/
def innermost : Place := .entry (.entry (.member ⟨1, 0⟩ "x" false) (.integer 1)) (.string "a")

theorem contains_of_sheltering {overloads : List Overload} {s : Store}
    (houter : s.contains ⟨0, 0⟩ = true) (hinner : s.contains ⟨1, 0⟩ = true) (h : Handle)
    (hthere : (sheltering overloads).store.contains h = true) : s.contains h = true := by
  obtain ⟨c, hget⟩ := Store.contains_iff.mp hthere
  have hmem := Store.mem_live.mpr hget
  simp only [sheltering, Store.live, List.zipIdx_cons, List.zipIdx_nil,
    List.filterMap_cons, Option.map_some,
    List.filterMap_nil, List.mem_cons, List.not_mem_nil, or_false, Prod.mk.injEq] at hmem
  rcases hmem with ⟨rfl, _⟩ | ⟨rfl, _⟩
  · exact houter
  · exact hinner

end Sketch

/-- Nil is written to an entry of an entry, and read back. -/
theorem readPlace_writePlace_innermost :
    ∃ m', (writePlace (rules 9) default innermost none).outcome nested = .ok (.ok true, m') ∧
      (nested.readPlace innermost).isSome = true ∧ m'.readPlace innermost = none ∧
      (m'.store.overloads ⟨0, 0⟩ "x")[0]? = (nested.store.overloads ⟨0, 0⟩ "x")[0]? := by
  have hcheck : ((writePlace (rules 9) default innermost none).outcome nested).toOption.map
      (fun p => (p.1.toOption, p.2.store.contains ⟨0, 0⟩, p.2.store.contains ⟨1, 0⟩)) =
        some (some true, true, true) := by decide +kernel
  have hroot : (nested.rootOf? innermost).map (fun r => (r.owner, r.index, r.overload.observers)) =
      some (⟨0, 0⟩, some 1, []) := by decide +kernel
  obtain ⟨result, m', hrun, hall⟩ := Run.exists_ok_of_map hcheck
  obtain ⟨hresult, hboth⟩ := Prod.mk.inj hall
  obtain ⟨houter, hinner⟩ := Prod.mk.inj hboth
  obtain rfl : result = .ok true := by cases result <;> simp_all [Except.toOption]
  obtain ⟨r, hr, hfound⟩ := Option.map_eq_some_iff.mp hroot
  obtain ⟨howner, hfound⟩ := Prod.mk.inj hfound
  obtain ⟨hindex, hobservers⟩ := Prod.mk.inj hfound
  obtain ⟨resolved, index, hresolved, hplace, _, hread, _, hothers⟩ := readPlace_writePlace hrun
    (fun resolved hresolved => by rwa [← Option.some.inj (hr.symm.trans hresolved)])
    (contains_of_sheltering houter hinner) (by simp [innermost, Place.keys, Value.NaNFree])
  obtain rfl : resolved = r := Option.some.inj (hresolved.symm.trans hr)
  obtain rfl : index = 1 := Option.some.inj (hplace.symm.trans hindex)
  exact ⟨m', hrun, by decide +kernel, hread (Or.inr (Or.inl rfl)), hothers _ _ 0 (by simp)⟩

/-! ## Declaring -/

/-- Whether a statement in the body of a declarator declares an observer. -/
def Node.isObserver (node : Node) : Bool :=
  match node.form with
  | .observerDeclaration _ _ => true
  | _ => false

namespace Run

variable {m m' : Machine}

theorem observersIn_of_none (r : Rules) (scope : Handle) {statements : List Node}
    (hnone : ∀ statement ∈ statements, statement.isObserver = false) :
    observersIn r scope statements m = .ok ([], m) := by
  induction statements with
  | nil => rfl
  | cons statement rest ih =>
    obtain ⟨hstatement, hrest⟩ := List.forall_mem_cons.mp hnone
    obtain ⟨range, form⟩ := statement
    cases form with
    | observerDeclaration _ _ => cases hstatement
    | _ => exact ih hrest

/-- The first overload is replaced, or there was none. -/
theorem placeOverload_first (overload : Overload) (overloads : List Overload) :
    (placeOverload overload (some 0) overloads).2 = overload :: overloads.tail := by
  cases overloads <;> rfl

/-- A declarator without observers puts its overload in the first place. -/
theorem setMember_of_declarator {r : Rules} {modifiers : List String} {scope : Handle} {node : Node}
    {identifier type initial body : Option Node} {x : String} {t : TypeTree}
    {value : Option Value} {m₀ m₁ : Machine}
    (hform : node.form = .declarator identifier type initial body)
    (hname : identifier.bind Node.identifier? = some x)
    (hplain : ∀ statement ∈ bodyStatements body, statement.isObserver = false)
    (htype : typeOf scope type m = .ok (t, m₀))
    (hvalue : (evalChild r initial scope).outcome m₀ = .ok (.ok value, m₁))
    (hrun : (declarator r modifiers scope node).outcome m = .ok (.ok (), m')) :
    ∃ result, setMember r scope x { modifiers, type := t, value } .first m₁ = .ok (result, m') := by
  rw [declarator, hform] at hrun
  dsimp only at hrun
  rw [hname] at hrun
  obtain ⟨t', m₀', htype', hrun⟩ := exists_ok_of_bind hrun
  obtain ⟨value', m₁', hvalue', hrun⟩ := exists_ok_of_bind hrun
  obtain ⟨observers, m₂, hobservers, hrun⟩ := exists_ok_of_bind hrun
  obtain ⟨result, m₃, hset, hreturn⟩ := exists_ok_of_bind hrun
  cases htype.symm.trans (exists_run_of_lift htype')
  cases hvalue.symm.trans hvalue'
  cases (observersIn_of_none r scope hplain).symm.trans (exists_run_of_lift hobservers)
  cases hreturn
  exact ⟨result, exists_run_of_lift hset⟩

/-- A name stands for the value of what is found. -/
theorem outcome_identifier {scope : Handle} {x : String} {resolved : Resolved}
    (hfind : m.lookup.find? scope x .property false = some resolved) (range : Range) (depth : Nat) :
    ((rules (depth + 1)).eval (.mk range (.identifier x)) scope).outcome m =
      .ok (.ok resolved.overload.value, m) := by
  have hrun : Run.identifier (.mk range (.identifier x)) x scope m =
    .ok (resolved.overload.value, m) := by
    refine bind_of_ok (a := m) rfl ?_
    rw [hfind]
    rfl
  change (Run.identifier (.mk range (.identifier x)) x scope m >>= fun p =>
    Except.ok (Except.ok p.1, p.2)) = _
  rw [hrun]
  rfl

end Run

/-- After a variable is declared with a value in a namespace, by a declarator without observers that
    ends no life, its name stands for the last value of an overload behind the first; only if none
    of those has a value, it stands for the value of the declaration. -/
theorem identifier_of_variableDeclaration {depth deeper : Nat} {m m₀ m₁ m' : Machine}
    {scope : Handle} {c : Composite}
    {modifiers : List String} {node : Node} {identifier type initial body : Option Node}
    {x : String} {t : TypeTree} {v : Value} {result : Option Value}
    (hform : node.form = .declarator identifier type initial body)
    (hname : identifier.bind Node.identifier? = some x)
    (hplain : ∀ statement ∈ bodyStatements body, statement.isObserver = false)
    (htype : typeOf scope type m = .ok (t, m₀))
    (hvalue : (evalChild (rules depth) initial scope).outcome m₀ = .ok (.ok (some v), m₁))
    (hscope : m₁.store.get? scope = some c) (hspace : c.is .namespace = true)
    (hrun : (variableDeclaration (rules depth) modifiers [node] scope).outcome m =
      .ok (.ok result, m'))
    (hspared : ∀ h, m₁.store.contains h = true → m'.store.contains h = true) (range : Range) :
    ((rules (deeper + 1)).eval (.mk range (.identifier x)) scope).outcome m' =
      .ok (.ok (some (((m₁.store.overloads scope x).tail.filterMap (·.value)).getLast?.getD v)),
        m') := by
  obtain ⟨_, _, hdeclarators, hreturn⟩ := exists_ok_of_bind hrun
  cases hreturn
  obtain ⟨_, _, hdeclarator, hend⟩ := exists_ok_of_bind hdeclarators
  cases hend
  obtain ⟨_, hset⟩ := setMember_of_declarator hform hname hplain htype hvalue hdeclarator
  -- What is put in stands first; all other overloads of the name stand behind it as before.
  have hput := setMember_resembles hset rfl hscope hspared
  rw [placeOverload_first] at hput
  obtain ⟨d, hget, hbare⟩ := hput.get? (Store.get?_modify_self _ hscope)
  have hoverloads : (d.members.get? x).getD [] =
      { modifiers, type := t, value := some v } :: (m₁.store.overloads scope x).tail := by
    rw [← Store.overloads_of_get? hget, hput.overloads, Store.overloads_putMember hscope,
      if_pos ⟨rfl, rfl⟩]
  have hne : (d.members.get? x).getD [] ≠ [] := by
    rw [hoverloads]
    exact List.cons_ne_nil _ _
  obtain ⟨index, picked, overload, hselect, hoverload, hread⟩ :=
    Lookup.exists_select_property m'.lookup hne
  have hfind := Lookup.find?_of_answer (L := m'.lookup) hget
    (by rw [(Composite.alike_of_bare hbare).is]; exact hspace)
    (Lookup.answer_of_select hselect hoverload scope) false
  have hvalues : overload.value =
      some (((m₁.store.overloads scope x).tail.filterMap (·.value)).getLast?.getD v) := by
    rw [hread, hoverloads]
    exact List.getLast?_cons
  rw [← hvalues]
  exact outcome_identifier hfind range deeper

/-- A number takes the place of another one; the overload behind it has no value. -/
theorem identifier_of_variableDeclaration_five :
    ∃ m', (variableDeclaration (rules 9) [] [declaring "x" 5] ⟨0, 0⟩).outcome
        (sheltering [Sketch.holding (some (.integer 7)), Sketch.holding none]) = .ok (.ok none, m') ∧
      ((rules 9).eval (named "x") ⟨0, 0⟩).outcome m' = .ok (.ok (some (.integer 5)), m') := by
  have hcheck : ((variableDeclaration (rules 9) [] [declaring "x" 5] ⟨0, 0⟩).outcome
      (sheltering [Sketch.holding (some (.integer 7)), Sketch.holding none])).toOption.map
        (fun p => (p.1.toOption.map Option.isSome, p.2.store.contains ⟨0, 0⟩,
          p.2.store.contains ⟨1, 0⟩)) =
          some (some false, true, true) := by decide +kernel
  obtain ⟨result, m', hrun, hall⟩ := Run.exists_ok_of_map hcheck
  obtain ⟨hresult, hboth⟩ := Prod.mk.inj hall
  obtain ⟨houter, hinner⟩ := Prod.mk.inj hboth
  obtain rfl : result = .ok none := by cases result <;> simp_all [Except.toOption]
  exact ⟨m', hrun,
    identifier_of_variableDeclaration rfl rfl (by simp [bodyStatements]) rfl rfl rfl rfl hrun
    (contains_of_sheltering houter hinner) {}⟩

/-- Two parameters have one name, and a variable is declared under it. -/
def declaredThrice : Node := .bare (.module
  [functionNamed "f" ["x", "x"]
      [.bare (.variableDeclaration [] [declaring "x" 5]), calling "print" [named "x"]],
    calling "f" [number 1, number 2]])

/-- The declaration takes the place of the first parameter, and the second is read. -/
theorem declaration_behind_parameter : reported declaredThrice = some ["2"] := by decide +kernel

end CompositeGraph
