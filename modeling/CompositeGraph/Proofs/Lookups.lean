/-
  LOOKUPS come to an end, in every store, unless types that are no trees are compared.

  A lookup walks: outwards from scope to scope, on each of them up a chain of objects and up a chain
  of types, and at each composite through its imports.  Such walks end whatever the links are like.
  At a composite, though, it is asked which overload is wanted, and that may mean comparing types.
  Between trees that ends.  But nothing keeps a part of a type that was restored from standing below
  itself, and then a comparison may go on for ever, and with it the lookup.

    1. QUESTIONS.    `Settles`: what is asked at a composite has an answer.
                     `Comparable`: the types are trees.
    2. COMPOSITES.   A member of one composite or of what it imports.
    3. CHAINS.       Objects, where the walk is done once more if what was found
                     is virtual, and types.
    4. LEVELS.       Everything together, from a composite outwards.
    5. TERMINATION.  What ends, with the answer of the lookup, and what has no end.
-/
import CompositeGraph.Proofs.Acceptance
import CompositeGraph.Proofs.Snapshots
import CompositeGraph.Proofs.Walks

namespace CompositeGraph

open Run

/-! ## Questions -/

/-- Questions about several things in order have an answer if each of them has. -/
theorem findSomeM?_isSome {α β : Type} {find : α → Option (Option β)} {items : List α}
    (h : ∀ item ∈ items, (find item).isSome) : (items.findSomeM? find).isSome := by
  induction items with
  | nil => rfl
  | cons item items ih =>
    obtain ⟨hitem, hitems⟩ := List.forall_mem_cons.mp h
    obtain ⟨found, hfound⟩ := Option.isSome_iff_exists.mp hitem
    rw [List.findSomeM?, hfound]
    cases found with
    | some b => rfl
    | none => exact ih hitems

namespace Lookup

variable (lookup : Lookup)

/-- What stands for a name in a composite that has no such member. -/
def substitute (c : Composite) (identifier : String) : Option Handle :=
  (lookup.pseudo c identifier).or (if c.is .namespace then c.imports.get? identifier else none)

/-- Which overload is wanted can be found out, among the members and, if need be, of
    what stands for them. -/
structure Settles (c : Composite) (identifier : String) (matching : Matching) : Prop where
  members : (lookup.select? ((c.members.get? identifier).getD []) matching).isSome
  substitutes : lookup.select ((c.members.get? identifier).getD []) matching = none →
    ∀ target, lookup.substitute c identifier = some target →
    (lookup.select? [standIn target] matching).isSome

/-- What types a matching compares are trees.  Where types do not matter, nothing is asked for. -/
def Comparable : Matching → Prop
  | .property => True
  | .composite => True
  | .call _ => lookup.structural = true →
    ∀ h c, lookup.store.get? h = some c → c.is .function = true → c.type.WellFormed
  | .nominal type => type.WellFormed ∧
    ∀ h c, lookup.store.get? h = some c → ∀ name overloads, c.members.get? name = some overloads →
      ∀ overload ∈ overloads, overload.type.WellFormed

variable {lookup} {identifier : String} {matching : Matching} {h : Handle} {c : Composite}

theorem wellFormed_ofPart {part : TypePart} (h : part.parent = none) :
    (TypeTree.ofPart part).WellFormed where
  root := h
  earlier i hi hpos := by
    have : i < 1 := hi
    omega

theorem wellFormed_valueType (value : Option Value) : (lookup.valueType value).WellFormed := by
  have hempty : TypeTree.empty.WellFormed := by decide
  unfold valueType
  split
  · exact hempty
  · split
    · cases Predefined.ofName _ with
      | none => exact hempty
      | some predefined => exact wellFormed_ofPart rfl
    · dsimp only
      split
      · split <;> exact wellFormed_ofPart rfl
      · exact wellFormed_ofPart rfl

theorem argumentsFit?_isSome {type : TypeTree} (htype : lookup.structural = true → type.WellFormed)
    (position : Nat) (arguments : List Argument) :
    (lookup.argumentsFit? type position arguments).isSome := by
  induction arguments generalizing position with
  | nil => rfl
  | cons argument rest ih =>
    rw [argumentsFit?]
    split
    · rfl
    · rename_i index part _
      have htyped : (lookup.typed? type index argument.value).isSome := by
        rw [typed?]
        split
        · rename_i hstructural
          have hwf := htype hstructural
          rw [hwf.subtype?_eq_subtype]
          exact (hwf.subtype index).accepts?_isSome (wellFormed_valueType _) _
        · rfl
      obtain ⟨fits, hfits⟩ := Option.isSome_iff_exists.mp htyped
      split
      · rw [hfits]
        cases fits with
        | true => exact ih (position + 1)
        | false => rfl
      · rfl

theorem valueFunction?_isSome {arguments : List Argument}
    (hcomparable : lookup.Comparable (.call arguments))
    (value : Option Value) : (lookup.valueFunction? value arguments).isSome := by
  rw [valueFunction?]
  split
  · rfl
  · rename_i function composite hcandidate
    obtain ⟨_, _, hcandidate⟩ := Option.bind_eq_some_iff.mp hcandidate
    obtain ⟨_, hget, hfits⟩ := Option.bind_eq_some_iff.mp hcandidate
    obtain ⟨hfunction, heq⟩ := Option.ite_none_right_eq_some.mp hfits
    obtain ⟨rfl, rfl⟩ := Prod.mk.inj (Option.some.inj heq)
    have htype := fun hstructural =>
      hcomparable hstructural _ _ hget (Bool.and_eq_true_iff.mp hfunction).1
    obtain ⟨fits, hfit⟩ := Option.isSome_iff_exists.mp (argumentsFit?_isSome htype 0 arguments)
    rw [hfit]
    rfl

theorem findValueFunction?_isSome {arguments : List Argument}
    (hcomparable : lookup.Comparable (.call arguments))
    (value : Option Value) : (lookup.findValueFunction? value arguments).isSome := by
  unfold findValueFunction?
  split
  · exact findSomeM?_isSome fun value _ => valueFunction?_isSome hcomparable (some value)
  · exact valueFunction?_isSome hcomparable value

/-- Where types are trees, it can be found out which of several overloads is wanted. -/
theorem Comparable.select?_isSome (hcomparable : lookup.Comparable matching)
    {overloads : List Overload} (hoverloads : ∀ overload ∈ overloads, ∀ type,
      matching = .nominal type → overload.type.WellFormed) :
    (lookup.select? overloads matching).isSome := by
  cases matching with
  | property => rfl
  | composite => rfl
  | call arguments =>
    refine findSomeM?_isSome fun item _ => ?_
    obtain ⟨found, hfound⟩ :=
      Option.isSome_iff_exists.mp (findValueFunction?_isSome hcomparable item.1.value)
    simp only [hfound]
    rfl
  | nominal type =>
    refine findSomeM?_isSome fun item hitem => ?_
    have hmem := Discipline.mem_of_mem_zipIdx (List.mem_reverse.mp hitem)
    have hwf := hoverloads item.1 hmem type rfl
    obtain ⟨yes, hyes⟩ :=
      Option.isSome_iff_exists.mp (hcomparable.1.accepts?_isSome hwf lookup.store.lineage)
    simp only [hyes]
    rfl

theorem Comparable.settles (hcomparable : lookup.Comparable matching)
    (hc : lookup.store.get? h = some c)
    (identifier : String) : lookup.Settles c identifier matching where
  members := by
    refine hcomparable.select?_isSome ?_
    rintro overload hoverload type rfl
    cases hget : c.members.get? identifier with
    | none =>
      rw [hget] at hoverload
      cases hoverload
    | some overloads =>
      rw [hget] at hoverload
      exact hcomparable.2 h c hc identifier overloads hget overload hoverload
  substitutes _ target _ := by
    refine hcomparable.select?_isSome ?_
    rintro overload hoverload type rfl
    rw [List.mem_singleton.mp hoverload]
    exact wellFormed_ofPart rfl

/-! ## Composites -/

variable (lookup) (identifier) (matching)

/-- What an answer gives. -/
def Answer.resolved? : Answer → Option Resolved
  | .found resolved => some resolved
  | .closed => none
  | .ask _ => none

/-- Which composites are asked next. -/
def Answer.asked : Answer → List Handle
  | .found _ => []
  | .closed => []
  | .ask imports => imports

/-- A member of one composite or of what it imports. -/
def importing : Search Resolved where
  finds h c found := lookup.Settles c identifier matching ∧
    (lookup.answer h c identifier matching).resolved? = found
  next h c := (lookup.answer h c identifier matching).asked
  unique hfound hfound' := hfound'.2.symm.trans hfound.2

variable {lookup identifier matching}

/-- Asking composites in order is a walk over their imports. -/
theorem memberAmong_eq_roam (identifier : String) (matching : Matching) (steps : Nat)
    (visited pending : List Handle) : lookup.memberAmong identifier matching steps visited pending =
      roam (fun h c => (lookup.answer h c identifier matching).resolved?)
        (fun h c => (lookup.answer h c identifier matching).asked) lookup.store steps
          visited pending := by
  induction steps generalizing visited pending with
  | zero => rfl
  | succ steps ih =>
    rw [memberAmong, roam]
    cases pending.dropWhile fun h => visited.contains h || !lookup.store.contains h with
    | nil => rfl
    | cons h rest =>
      dsimp only
      cases lookup.store.get? h with
      | none => rfl
      | some c =>
        dsimp only
        rw [← ih]
        cases lookup.answer h c identifier matching <;> rfl

theorem exists_concludes_member?
    (hsettles : ∀ h c, lookup.store.get? h = some c → lookup.Settles c identifier matching)
    (h : Handle) :
      ∃ visits, (lookup.importing identifier matching).Concludes lookup.store [h] visits
      (lookup.member? h identifier matching) := by
  rw [member?, memberAmong_eq_roam]
  exact Search.exists_concludes_roam (lookup.importing identifier matching)
    (fun h c hc => ⟨hsettles h c hc, rfl⟩) [h]

/-- What is found at a composite and its imports, if that ends, is the member. -/
theorem member?_eq_of_walk {visits : List Handle} {found : Option Resolved}
    (hw : (lookup.importing identifier matching).Walk lookup.store [] [h] visits found) :
    lookup.member? h identifier matching = found := by
  have hfound : ∀ h c found, lookup.store.get? h = some c →
    (lookup.importing identifier matching).finds h c found →
      (lookup.answer h c identifier matching).resolved? = found := fun _ _ _ _ hfinds => hfinds.2
  rw [member?, memberAmong_eq_roam]
  exact hw.roam_eq hfound

/-! ## Chains -/

variable (lookup) (identifier) (matching)

/-- A member, on each composite along a slot. -/
def rising (slot : Slot) : Search (Handle × Resolved) where
  finds h _ found := ∃ visits member,
    (lookup.importing identifier matching).Walk lookup.store [] [h] visits member ∧
    found = member.map fun resolved => (h, resolved)
  next _ c := (c.links.get slot).toList
  unique := by
    rintro h c _ _ ⟨_, _, hw, rfl⟩ ⟨_, _, hw', rfl⟩
    rw [(hw.unique hw').2]

/-- A search through the chain of objects: what it visits and what it comes to.  Where something
    virtual is found on an object that is not the lowest, there is a second walk from the lowest,
    and no third. -/
inductive ObjectSearch (start : Option Handle) :
    (visits : List Handle) → Option Resolved → Prop where
  | missed {visits : List Handle} :
    (lookup.rising identifier matching .super).Walk lookup.store [] start.toList visits none →
      ObjectSearch start visits none
  | kept {visits : List Handle} {level : Handle} {found : Resolved} :
      (lookup.rising identifier matching .super).Walk lookup.store [] start.toList visits
      (some (level, found)) →
      (found.overload.hasModifier "virtual" = true → lookup.lowestSub level = level) →
      ObjectSearch start visits (some found)
  | redirected {visits again : List Handle} {level : Handle} {found : Resolved}
      {result : Option (Handle × Resolved)} :
      (lookup.rising identifier matching .super).Walk lookup.store [] start.toList visits
      (some (level, found)) →
      found.overload.hasModifier "virtual" = true → lookup.lowestSub level ≠ level →
      (lookup.rising identifier matching .super).Walk lookup.store []
      [lookup.lowestSub level] again result →
      ObjectSearch start (visits ++ again) (result.map (·.2))

variable {lookup identifier matching} {start : Option Handle} {visits visits' : List Handle}
  {result result' : Option Resolved}

namespace ObjectSearch

theorem count_le_two (hsearch : lookup.ObjectSearch identifier matching start visits result)
    (x : Handle) : visits.count x ≤ 2 := by
  cases hsearch with
  | missed hw => exact Nat.le_succ_of_le (List.nodup_iff_count_le_one.mp hw.nodup x)
  | kept hw => exact Nat.le_succ_of_le (List.nodup_iff_count_le_one.mp hw.nodup x)
  | redirected hw _ _ hagain =>
    rw [List.count_append]
    exact Nat.add_le_add (List.nodup_iff_count_le_one.mp hw.nodup x)
      (List.nodup_iff_count_le_one.mp hagain.nodup x)

/-- The first walk decides what is done next, and there is one walk at most. -/
theorem unique (hsearch : lookup.ObjectSearch identifier matching start visits result)
    (hsearch' : lookup.ObjectSearch identifier matching start visits' result') :
      visits' = visits ∧ result' = result := by
  cases hsearch with
  | missed hw =>
    cases hsearch' with
    | missed hw' =>
      obtain ⟨rfl, -⟩ := hw.unique hw'
      exact ⟨rfl, rfl⟩
    | kept hw' | redirected hw' => cases (hw.unique hw').2
  | kept hw hkept =>
    cases hsearch' with
    | missed hw' => cases (hw.unique hw').2
    | kept hw' =>
      obtain ⟨rfl, heq⟩ := hw.unique hw'
      cases heq
      exact ⟨rfl, rfl⟩
    | redirected hw' hvirtual hlower =>
      cases (hw.unique hw').2
      exact absurd (hkept hvirtual) hlower
  | redirected hw hvirtual hlower hagain =>
    cases hsearch' with
    | missed hw' => cases (hw.unique hw').2
    | kept hw' hkept =>
      cases (hw.unique hw').2
      exact absurd (hkept hvirtual) hlower
    | redirected hw' _ _ hagain' =>
      obtain ⟨rfl, heq⟩ := hw.unique hw'
      cases heq
      obtain ⟨rfl, rfl⟩ := hagain.unique hagain'
      exact ⟨rfl, rfl⟩

end ObjectSearch

/-- What is found along a slot, if that ends, is found along the trail. -/
theorem firstOn_eq_of_walk {slot : Slot} {found : Option (Handle × Resolved)}
    (hw : (lookup.rising identifier matching slot).Walk lookup.store [] start.toList visits found) :
    lookup.firstOn (lookup.store.slotTrail slot start) identifier matching = found := by
  have hfound : ∀ h c found, lookup.store.get? h = some c →
      (lookup.rising identifier matching slot).finds h c found →
      lookup.asked identifier matching h = found := by
    rintro h c _ _ ⟨_, member, hw, rfl⟩
    rw [asked, member?_eq_of_walk hw]
  rw [firstOn, Store.slotTrail, Store.trail]
  exact (Store.findSome?_trailFrom _ (fun h _ => lookup.asked identifier matching h) _ _ _ _).trans
    (hw.roam_eq hfound)

theorem ObjectSearch.onObjects_eq
    (hsearch : lookup.ObjectSearch identifier matching (lookup.objectOf h c) visits result) :
    lookup.onObjects h c identifier matching = result := by
  rw [onObjects]
  cases hsearch with
  | missed hw => simp only [firstOn_eq_of_walk hw]
  | @kept _ level found hw hkept =>
    have hstay : (found.overload.hasModifier "virtual" && lookup.lowestSub level != level) =
      false := by
      cases hvirtual : found.overload.hasModifier "virtual" with
      | false => rfl
      | true => simp [hkept hvirtual]
    simp only [firstOn_eq_of_walk hw, hstay, Bool.false_eq_true, if_false]
  | @redirected _ _ level found _ hw hvirtual hlower hagain =>
    have hagain : (lookup.rising identifier matching .super).Walk lookup.store []
      (some (lookup.lowestSub level)).toList _ _ := hagain
    have hredirect : (found.overload.hasModifier "virtual" && lookup.lowestSub level != level) =
      true := by
      simp [hvirtual, hlower]
    simp only [firstOn_eq_of_walk hw, hredirect, if_true, firstOn_eq_of_walk hagain]

section Settled

variable (hsettles : ∀ h c, lookup.store.get? h = some c → lookup.Settles c identifier matching)

include hsettles

theorem exists_walk_firstOn (slot : Slot) (start : Option Handle) :
    ∃ visits, (lookup.rising identifier matching slot).Walk lookup.store [] start.toList visits
      (lookup.firstOn (lookup.store.slotTrail slot start) identifier matching) := by
  have hfound : ∀ h c, lookup.store.get? h = some c →
      (lookup.rising identifier matching slot).finds h c (lookup.asked identifier matching h) := by
    intro h c _
    obtain ⟨visits, hconcludes⟩ := exists_concludes_member? hsettles h
    exact ⟨visits, _, hconcludes.walk, rfl⟩
  obtain ⟨visits, hconcludes⟩ := Search.exists_concludes_roam _ hfound start.toList
  refine ⟨visits, ?_⟩
  rw [firstOn, Store.slotTrail, Store.trail]
  exact (Store.findSome?_trailFrom _ (fun h _ => lookup.asked identifier matching h) _ _ _ _) ▸
    hconcludes.walk

theorem exists_objectSearch (h : Handle) (c : Composite) :
    ∃ visits, lookup.ObjectSearch identifier matching (lookup.objectOf h c) visits
      (lookup.onObjects h c identifier matching) := by
  obtain ⟨visits, hw⟩ := exists_walk_firstOn hsettles .super (lookup.objectOf h c)
  rw [onObjects]
  dsimp only
  split
  · rename_i hnone
    rw [hnone] at hw
    exact ⟨visits, .missed hw⟩
  · rename_i level found hfound
    rw [hfound] at hw
    split
    · rename_i hredirect
      obtain ⟨hvirtual, hlower⟩ := Bool.and_eq_true_iff.mp hredirect
      obtain ⟨again, hagain⟩ := exists_walk_firstOn hsettles .super (some (lookup.lowestSub level))
      exact ⟨visits ++ again, .redirected hw hvirtual (by simpa using hlower) hagain⟩
    · rename_i hstay
      refine ⟨visits, .kept hw fun hvirtual => ?_⟩
      rw [hvirtual, Bool.true_and] at hstay
      simpa using hstay

end Settled

/-! ## Levels -/

variable (lookup) (identifier) (matching)

/-- The type that the members of a composite come from. -/
def typeOf (h : Handle) (c : Composite) : Option Handle :=
  if c.is .object then c.links.currentType else some h

/-- A search on one level, which goes on to the next chain if it has found nothing. -/
inductive LevelSearch (h : Handle) (c : Composite) : Option Resolved → Prop where
  | own {visits : List Handle} {found : Resolved} : (c.is .function || c.is .namespace) = true →
    (lookup.importing identifier matching).Walk lookup.store [] [h] visits (some found) →
    LevelSearch h c (some found)
  | object {visits : List Handle} {found : Resolved} :
    ((c.is .function || c.is .namespace) = true →
      ∃ visits, (lookup.importing identifier matching).Walk lookup.store [] [h] visits none) →
    lookup.ObjectSearch identifier matching (lookup.objectOf h c) visits (some found) →
    LevelSearch h c (some found)
  | type {visits visits' : List Handle} {found : Option (Handle × Resolved)} :
    ((c.is .function || c.is .namespace) = true →
      ∃ visits, (lookup.importing identifier matching).Walk lookup.store [] [h] visits none) →
    lookup.ObjectSearch identifier matching (lookup.objectOf h c) visits none →
    (lookup.rising identifier matching .superType).Walk lookup.store []
    (typeOf h c).toList visits' found →
    LevelSearch h c (found.map (·.2))

variable {lookup identifier matching}

theorem LevelSearch.onLevel_eq (hsearch : lookup.LevelSearch identifier matching h c result) :
    lookup.onLevel h c identifier matching = result := by
  have hmissed : ((c.is .function || c.is .namespace) = true →
      ∃ visits, (lookup.importing identifier matching).Walk lookup.store [] [h] visits none) →
      (if c.is .function || c.is .namespace then lookup.member? h identifier matching else none) =
      none := by
    intro hmissed
    split
    · rename_i hscope
      obtain ⟨_, hw⟩ := hmissed hscope
      exact member?_eq_of_walk hw
    · rfl
  rw [onLevel]
  cases hsearch with
  | own hscope hw =>
    rw [if_pos hscope, member?_eq_of_walk hw]
    rfl
  | object hown hobject =>
    rw [hmissed hown, hobject.onObjects_eq]
    rfl
  | type hown hobject htype =>
    rw [hmissed hown, hobject.onObjects_eq, onTypes]
    exact congrArg (Option.map (·.2)) (firstOn_eq_of_walk htype)

theorem exists_levelSearch
    (hsettles : ∀ h c, lookup.store.get? h = some c → lookup.Settles c identifier matching)
    (h : Handle) (c : Composite) :
    lookup.LevelSearch identifier matching h c (lookup.onLevel h c identifier matching) := by
  obtain ⟨_, hown⟩ := exists_concludes_member? hsettles h
  obtain ⟨_, hobject⟩ := exists_objectSearch hsettles h c
  obtain ⟨_, htype⟩ := exists_walk_firstOn hsettles .superType (typeOf h c)
  rw [onLevel]
  cases hfound :
    (if c.is .function || c.is .namespace then lookup.member? h identifier matching else none) with
  | some found =>
    obtain ⟨hscope, hmember⟩ := Option.ite_none_right_eq_some.mp hfound
    exact .own hscope (hmember ▸ hown.walk)
  | none =>
    have hmissed : (c.is .function || c.is .namespace) = true →
        ∃ visits, (lookup.importing identifier matching).Walk lookup.store [] [h] visits none := by
      intro hscope
      rw [if_pos hscope] at hfound
      exact ⟨_, hfound ▸ hown.walk⟩
    cases hobjects : lookup.onObjects h c identifier matching with
    | some found => exact .object hmissed (hobjects ▸ hobject)
    | none => exact .type hmissed (hobjects ▸ hobject) htype

variable (lookup) (identifier) (matching)

/-- A member, on each level from a composite outwards. -/
def outward (internal : Bool) : Search Resolved where
  finds := lookup.LevelSearch identifier matching
  next _ c := if internal then [] else c.links.scope.toList
  unique hfound hfound' := hfound'.onLevel_eq.symm.trans hfound.onLevel_eq

variable {lookup identifier matching}

/-- A lookup is the walk with a bound, outwards or on the first level only. -/
theorem find?_eq_roam (start : Handle) (internal : Bool) :
    lookup.find? start identifier matching internal =
      roam (fun h c => lookup.onLevel h c identifier matching)
        (lookup.outward identifier matching internal).next
        lookup.store lookup.store.size [] [start] := by
  cases internal with
  | false =>
    exact lookup.store.findSome?_trailFrom (fun h c => lookup.onLevel h c identifier matching)
      (fun _ c => c.links.get .scope) lookup.store.size [] (some start)
  | true =>
    rw [find?, if_pos rfl, Store.slotTrail, Store.trail, Store.take_one_trailFrom]
    exact lookup.store.findSome?_trailFrom
      (fun h c => lookup.onLevel h c identifier matching) (fun _ _ => none)
      lookup.store.size [] (some start)

theorem exists_concludes_find?
    (hsettles : ∀ h c, lookup.store.get? h = some c → lookup.Settles c identifier matching)
    (start : Handle) (internal : Bool) :
    ∃ visits, (lookup.outward identifier matching internal).Concludes lookup.store [start] visits
      (lookup.find? start identifier matching internal) := by
  rw [find?_eq_roam]
  exact Search.exists_concludes_roam _ (fun h c _ => exists_levelSearch hsettles h c) [start]

/-- What a lookup comes to, if it ends, is its answer. -/
theorem find?_eq_of_walk {start : Handle} {internal : Bool}
    (hw : (lookup.outward identifier matching internal).Walk lookup.store []
      [start] visits result) :
    lookup.find? start identifier matching internal = result := by
  rw [find?_eq_roam]
  exact hw.roam_eq fun _ _ _ _ hfinds => LevelSearch.onLevel_eq hfinds

end Lookup

/-! ## Termination -/

/-- The walks of a lookup come to an end where types that are compared are trees, and what the
    lookup answers is what the walk without a bound finds.  Walks along links alone always do. -/
structure Lookup.Terminates (lookup : Lookup) : Prop where
  /-- The walk through the scopes. -/
  levels : ∀ matching, lookup.Comparable matching → ∀ start identifier internal, ∃ visits,
    (lookup.outward identifier matching internal).Concludes lookup.store [start] visits
      (lookup.find? start identifier matching internal)
  /-- The walk through imports, on every composite. -/
  imports : ∀ matching, lookup.Comparable matching → ∀ h identifier, ∃ visits,
    (lookup.importing identifier matching).Concludes lookup.store [h] visits
    (lookup.member? h identifier matching)
  /-- The walk through a chain of objects, which is redirected once at most. -/
  objects : ∀ matching, lookup.Comparable matching → ∀ h c identifier, ∃ visits,
    lookup.ObjectSearch identifier matching (lookup.objectOf h c) visits
    (lookup.onObjects h c identifier matching) ∧
      (∀ x, visits.count x ≤ 2) ∧
      ∀ visits' result,
      lookup.ObjectSearch identifier matching (lookup.objectOf h c) visits' result →
        visits' = visits ∧ result = lookup.onObjects h c identifier matching
  /-- The walk through a chain of types. -/
  types : ∀ matching, lookup.Comparable matching → ∀ h c identifier, ∃ visits result,
    (lookup.rising identifier matching .superType).Concludes lookup.store
    (Lookup.typeOf h c).toList visits result ∧
      lookup.onTypes h c identifier matching = result.map (·.2)
  /-- Whatever the types are like, a lookup that ends has the answer of its walk. -/
  answers : ∀ start identifier matching internal visits result,
    (lookup.outward identifier matching internal).Walk lookup.store [] [start] visits result →
      lookup.find? start identifier matching internal = result
  /-- The walk down to the lowest object. -/
  lowest : ∀ object, ∃ visits,
    Search.sinking.Concludes lookup.store (lookup.store.link? .sub object).toList visits none ∧
      lookup.lowestSub object = visits.getLast?.getD object
  /-- The walk out of objects to what describes a value. -/
  values : ∀ (value : Value) h, value.handle? = some h → ∃ visits level,
    Search.surrounding.Concludes lookup.store [h] visits level ∧
      lookup.valueType (some value) = .ofPart
        { inout := value.primitive == .pointer, reference := some (level.getD h),
          isSelf := level == some h }
  /-- The walk through the scopes for an operator. -/
  operators : ∀ start symbol modifier, ∃ visits,
    (Search.declaring symbol modifier).Concludes lookup.store [start] visits
    (lookup.operator? start symbol modifier)
  /-- The walk from retainer to retainer. -/
  retainers : ∀ roots target, ∃ visits result,
    (Search.retaining roots).Concludes lookup.store [target] visits result ∧
      lookup.store.reaches roots target = (roots.contains target || result.isSome)

/-- The walks of an initializer always come to an end, whatever the rules are that
    a machine runs by. -/
structure Machine.Terminates (m : Machine) : Prop where
  /-- The walk up to an object that is under creation. -/
  delegation : ∀ scope classHandle, ∃ visits result,
    (Search.delegating classHandle).Concludes m.store
      ((m.store.link? .current scope).filter (m.store.isKind .object)).toList visits result ∧
    m.delegated? scope classHandle = (result.filter fun e => e.2.life == .creating).map (·.1)
  /-- The walk up the lineage of a class, with an object made for each class on the way. -/
  lineage : ∀ r scope classHandle generics,
    Ends m (initializerObject r scope classHandle generics) (m.Initializes scope classHandle)

theorem Lookup.terminates (lookup : Lookup) : lookup.Terminates where
  levels _ hcomparable start _ :=
    exists_concludes_find? (fun _ _ hc => hcomparable.settles hc _) start
  imports _ hcomparable h _ := exists_concludes_member? (fun _ _ hc => hcomparable.settles hc _) h
  objects _ hcomparable h c identifier := by
    obtain ⟨visits, hsearch⟩ :=
      exists_objectSearch (fun _ _ hc => hcomparable.settles hc identifier) h c
    exact ⟨visits, hsearch, hsearch.count_le_two, fun _ _ => hsearch.unique⟩
  types _ hcomparable h c identifier := by
    obtain ⟨visits, hw⟩ :=
      exists_walk_firstOn (fun _ _ hc => hcomparable.settles hc identifier) .superType (typeOf h c)
    exact ⟨visits, _, hw.concludes, rfl⟩
  answers _ _ _ _ _ _ := find?_eq_of_walk
  lowest := exists_concludes_lowestSub
  values _ _ := exists_concludes_valueType
  operators := exists_concludes_operator?
  retainers := lookup.store.exists_concludes_reaches

/-- In every store, whatever its links are like, the walks along links come to an end, and so do
    lookups in which the types that are compared are trees.  Where a comparison or a copy of a part
    has no answer, it would have none however far it were taken. -/
theorem walks_terminate (lookup : Lookup) (m : Machine) (lineage : Lineage) (t u : TypeTree)
    (e g : Nat) : lookup.Terminates ∧ m.Terminates ∧
      (t.partAccepts? lineage e u g = none ↔
        ∀ levels, TypeTree.acceptsWithin lineage levels t e u g = none) ∧
      (e < t.size → (t.subtype? e = none ↔ ∀ levels, t.copyInto? levels e none [] = none)) :=
  ⟨lookup.terminates, ⟨m.exists_concludes_delegated?, fun _ => initializerObject_initializes⟩,
    TypeTree.partAccepts?_eq_none_iff, TypeTree.subtype?_eq_none_iff⟩

/-- Two namespaces, each the scope of the other and imported by it.  The second has a member. -/
def circles : Lookup :=
  let space (other : Handle) : Composite :=
    { Composite.fresh none (.ofKind .namespace) with
      links := { scope := some other }
      imports := Assoc.empty.put "other" other }
  let full := { space ⟨0, 0⟩ with
    members :=
      Assoc.empty.put "x" [({ type := .ofPredefined .integer, value := none } : Overload)] }
  ⟨⟨#[⟨0, some (space ⟨1, 0⟩)⟩, ⟨0, some full⟩]⟩, true⟩

theorem walks_terminate_circles :
    let integer := TypeTree.ofPredefined .integer
    circles.store.link? .scope ⟨0, 0⟩ = some ⟨1, 0⟩ ∧
      circles.store.link? .scope ⟨1, 0⟩ = some ⟨0, 0⟩ ∧ circles.Comparable (.nominal integer) ∧
      (∃ visits, (circles.outward "x" (.nominal integer) false).Concludes circles.store [⟨0, 0⟩]
        visits (circles.find? ⟨0, 0⟩ "x" (.nominal integer) false)) ∧
      (integer.subtype? 0 = none ↔ ∀ levels, integer.copyInto? levels 0 none [] = none) := by
  intro integer
  have htypes : ∀ entry ∈ circles.store.live, ∀ member ∈ entry.2.members.entries,
      ∀ overload ∈ member.2, overload.type.WellFormed := by decide
  have hcomparable : circles.Comparable (.nominal integer) := by
    refine ⟨by decide, fun h c hc name overloads hget => ?_⟩
    obtain ⟨_, hmem, rfl⟩ := Option.map_eq_some_iff.mp hget
    exact htypes (h, c) (Store.mem_live.mpr hc) _ (List.mem_of_find?_eq_some hmem)
  obtain ⟨hwalks, -, -, hcopy⟩ :=
    walks_terminate circles {} circles.store.lineage integer integer 0 0
  exact ⟨rfl, rfl, hcomparable, hwalks.levels _ hcomparable ⟨0, 0⟩ "x" false, hcopy (by decide)⟩

/-- A union that stands below itself. -/
def endlessUnion : TypeTree := ⟨[{ parent := some 0, union := true }]⟩

/-- A function whose list of parameters stands below itself. -/
def endlessFunction : TypeTree :=
  ⟨[{ predefined := some (.composite .function) }, { parent := some 1, parameters := true }]⟩

/-- A namespace with a member of the first type, and with a function of the second. -/
def circularNamespace : Composite :=
  { Composite.fresh (some "Global") (.ofKind .namespace) with
    members := (Assoc.empty.put "x" [({ type := endlessUnion, value := none } : Overload)]).put "f"
      [({ type := .empty, value := some (.reference ⟨1, 0⟩) } : Overload)] }

def circular : Store :=
  ⟨#[⟨0, some circularNamespace⟩, ⟨0, some (Composite.fresh (some "F") endlessFunction)⟩]⟩

theorem accepts?_endlessUnion (lineage : Lineage) :
    (TypeTree.ofPredefined .integer).accepts? lineage endlessUnion = none := by
  have hexpected : (TypeTree.ofPredefined .integer).parts ≠ [] := List.cons_ne_nil _ _
  have hgiven : endlessUnion.parts ≠ [] := List.cons_ne_nil _ _
  rw [TypeTree.accepts?_eq_partAccepts? hexpected hgiven, TypeTree.partAccepts?_eq_none_iff]
  intro levels
  induction levels with
  | zero => rfl
  | succ levels ih =>
    -- The given union has one member, which is itself.
    show (TypeTree.acceptsWithin lineage levels _ 0 endlessUnion 0).bind _ = none
    rw [ih]
    rfl

theorem subtype?_endlessFunction : endlessFunction.subtype? 1 = none := by
  rw [Option.eq_none_iff_forall_ne_some]
  intro copy hcopy
  obtain ⟨hends, -⟩ := (TypeTree.subtype?_eq_some_iff (by decide)).mp hcopy
  have hitself : 1 ∈ endlessFunction.children 1 := by decide
  exact hends.not_under hitself .refl

/-- No lookup gets past a scope in which it cannot be found out what is wanted. -/
theorem Lookup.not_walk_outward {lookup : Lookup} {h : Handle} {c : Composite} {identifier : String}
    {matching : Matching} (hc : lookup.store.get? h = some c)
    (hscope : (c.is .function || c.is .namespace) = true)
    (hopen : ¬lookup.Settles c identifier matching) (internal : Bool) (visits : List Handle)
    (result : Option Resolved) :
    ¬(lookup.outward identifier matching internal).Walk lookup.store [] [h] visits result := by
  have himports : ∀ visits found,
    ¬(lookup.importing identifier matching).Walk lookup.store [] [h] visits found := by
    intro visits found hw
    cases hw with
    | again hmem => cases hmem
    | stale _ hget => cases hc.symm.trans hget
    | found _ hget hfinds | onward _ hget hfinds =>
      cases hc.symm.trans hget
      exact hopen hfinds.1
  have hlevel : ∀ found, ¬lookup.LevelSearch identifier matching h c found := by
    intro found hsearch
    cases hsearch with
    | own _ hw => exact himports _ _ hw
    | object hmissed | type hmissed =>
      obtain ⟨_, hw⟩ := hmissed hscope
      exact himports _ _ hw
  intro hw
  cases hw with
  | again hmem => cases hmem
  | stale _ hget => cases hc.symm.trans hget
  | found _ hget hfinds | onward _ hget hfinds =>
    cases hc.symm.trans hget
    exact hlevel _ hfinds

theorem writable_circular : circular.Writable := by
  have hfits : (⟨1, 0⟩ : Handle).Fits := by decide
  have hunion : endlessUnion.Writable := List.forall_mem_singleton.mpr ⟨by simp, by simp, by simp⟩
  have hfunction : endlessFunction.Writable := by
    refine List.forall_mem_cons.mpr ⟨⟨by simp, by simp, by simp⟩, List.forall_mem_singleton.mpr ?_⟩
    exact ⟨by simp, by simp, by simp⟩
  have hx : Overload.Writable { type := endlessUnion, value := none } := ⟨hunion, by simp, by simp⟩
  have hf : Overload.Writable { type := .empty, value := some (.reference ⟨1, 0⟩) } := by
    refine ⟨by simp [TypeTree.Writable, TypeTree.empty], ?_, by simp⟩
    rintro value ⟨⟩
    exact .reference hfits
  have hmembers : ∀ entry ∈ circularNamespace.members.entries, ∀ overload ∈ entry.2,
    overload.Writable := by
    simpa [circularNamespace, Assoc.put, Assoc.empty, Assoc.place] using ⟨hx, hf⟩
  have hkind : (TypeTree.ofKind .namespace).Writable :=
    List.forall_mem_singleton.mpr ⟨by simp, by simp, by simp⟩
  have hfresh := Composite.writable_fresh (some "Global") hkind
  simp only [Store.Writable, circular, List.forall_mem_cons, List.not_mem_nil, false_implies,
    implies_true, and_true]
  refine ⟨⟨by decide, ?_⟩, by decide, ?_⟩
  · rintro composite ⟨⟩
    exact { hfresh with members := hmembers }
  · rintro composite ⟨⟩
    exact Composite.writable_fresh (some "F") hfunction

theorem restore_circular : Snapshot.restore (Snapshot.save circular) = .ok circular := by
  have hreferences : ∀ entry ∈ circular.live, ∀ reference ∈ entry.2.references,
    reference.index < circular.size := by
    decide
  have hfloats : (Snapshot.ofStore circular).toJson.floats = [] := by decide +kernel
  rw [Snapshot.restore, Snapshot.run_save writable_circular (by decide +kernel)]
  · refine Snapshot.toStore_ofStore (Snapshot.firstDangling_eq_none ?_)
    exact fun handle composite hget => hreferences (handle, composite) (Store.mem_live.mpr hget)
  · rw [hfloats]
    exact fun _ h => absurd h List.not_mem_nil

/-- The overload with the endless union is compared, and there is no other. -/
theorem select?_endlessUnion (lookup : Lookup) :
    lookup.select? [({ type := endlessUnion, value := none } : Overload)]
      (.nominal (.ofPredefined .integer)) = none := by
  simp only [Lookup.select?, List.zipIdx_singleton, List.reverse_singleton, List.findSomeM?,
    accepts?_endlessUnion]
  rfl

/-- The endless function takes one argument, and where types are checked its parameter would have to
    be copied. -/
theorem select?_endlessFunction :
    (⟨circular, true⟩ : Lookup).select?
    [({ type := .empty, value := some (.reference ⟨1, 0⟩) } : Overload)]
      (.call [{}]) = none := by
  have hcandidate : (⟨circular, true⟩ : Lookup).candidate (some (.reference ⟨1, 0⟩)) 1 =
      some (⟨1, 0⟩, Composite.fresh (some "F") endlessFunction) := rfl
  have hparameter : endlessFunction.parameterAt? 0 =
    some (1, { parent := some 1, parameters := true }) := rfl
  have htyped : (⟨circular, true⟩ : Lookup).typed? endlessFunction 1 none = none := by
    simp only [Lookup.typed?, subtype?_endlessFunction, if_true]
    rfl
  have hfits : (⟨circular, true⟩ : Lookup).argumentsFit? endlessFunction 0 [{}] = none := by
    simp only [Lookup.argumentsFit?, hparameter, Lookup.labelFits, htyped, if_true]
    rfl
  have hfunction : (⟨circular, true⟩ : Lookup).valueFunction? (some (.reference ⟨1, 0⟩)) [{}] =
    none := by
    simp only [Lookup.valueFunction?, List.length_singleton, hcandidate, Composite.fresh, hfits]
    rfl
  simp only [Lookup.select?, List.zipIdx_singleton, List.findSomeM?,
    Lookup.findValueFunction?, hfunction]
  rfl

/-- A snapshot with such types is restored, and on what is restored lookups that have to compare
    them have no end. -/
theorem lookups_without_end :
    Snapshot.restore (Snapshot.save circular) = .ok circular ∧
      (∀ structural visits result, ¬((⟨circular, structural⟩ : Lookup).outward "x"
        (.nominal (.ofPredefined .integer)) false).Walk circular [] [⟨0, 0⟩] visits result) ∧
      ∀ visits result,
        ¬((⟨circular, true⟩ : Lookup).outward "f" (.call [{}]) false).Walk circular [] [⟨0, 0⟩]
        visits result := by
  refine ⟨restore_circular, fun structural => ?_, ?_⟩
  · refine Lookup.not_walk_outward rfl rfl (fun hsettles => ?_) false
    have hmembers :
      (Lookup.select? ⟨circular, structural⟩ [({ type := endlessUnion, value := none } : Overload)]
      (.nominal (.ofPredefined .integer))).isSome = true := hsettles.members
    rw [select?_endlessUnion] at hmembers
    cases hmembers
  · refine Lookup.not_walk_outward rfl rfl (fun hsettles => ?_) false
    have hmembers : (Lookup.select? ⟨circular, true⟩
      [({ type := .empty, value := some (.reference ⟨1, 0⟩) } : Overload)] (.call [{}])).isSome =
      true :=
      hsettles.members
    rw [select?_endlessFunction] at hmembers
    cases hmembers

end CompositeGraph
