/-
  RESEMBLANCE: what a change to one member leaves to be found.

  Putting an overload in and settling its links either ends some life or changes nothing but that
  member and some lists of retainers.  A lookup does not read retainers, so in the second case it
  goes the same way as before, through the same composites, and comes to the same overload.

    1. RESEMBLING.  `Store.Resembles`: stores that are equal but for their retainers.
    2. SETTLING.    A reconciliation that spares everything leaves a store that
                    resembles the old one.
    3. MIRRORS.     `Lookup.Mirrors`: where each composite answers as before up to a change of what
                    is found, so does each lookup.
    4. SELECTION.   Which overload is read.
-/
import CompositeGraph.Proofs.Balance
import CompositeGraph.Proofs.Binding
import CompositeGraph.Proofs.Lifespans
import Mathlib.Data.List.Induction

namespace CompositeGraph

open Run Store Composite

/-! ## Resembling -/

namespace Store

variable {s t u : Store} {h : Handle}

/-- Equal but for the lists of retainers. -/
structure Resembles (s t : Store) : Prop where
  size : t.size = s.size
  bare : ∀ h, t.bare? h = s.bare? h

theorem Resembles.refl (s : Store) : s.Resembles s := ⟨rfl, fun _ => rfl⟩

theorem Resembles.trans (h : s.Resembles t) (h' : t.Resembles u) : s.Resembles u :=
  ⟨h'.size.trans h.size, fun x => (h'.bare x).trans (h.bare x)⟩

theorem Resembles.mapRetainers (s : Store) (h : Handle) (change : List Handle → List Handle) :
    s.Resembles (s.modify h fun c => c.mapRetainers change) :=
  ⟨size_modify _ _, fun x => bare?_mapRetainers h x change⟩

theorem Resembles.contains (h : s.Resembles t) (x : Handle) : t.contains x = s.contains x :=
  contains_of_bare? (h.bare x)

/-- What a handle names has a counterpart that differs in its retainers only. -/
theorem Resembles.get? (hst : s.Resembles t) {c : Composite} (hget : s.get? h = some c) :
    ∃ d, t.get? h = some d ∧ d.bare = c.bare := by
  have hbare := hst.bare h
  rw [bare?_of_get? hget] at hbare
  exact Option.map_eq_some_iff.mp hbare

/-- The overloads of a member that a composite has itself. -/
def overloads (s : Store) (h : Handle) (name : String) : List Overload :=
  ((s.get? h).bind fun c => c.members.get? name).getD []

theorem overloads_of_get? {c : Composite} (hget : s.get? h = some c) (name : String) :
    s.overloads h name = (c.members.get? name).getD [] := by
  rw [overloads, hget]
  rfl

theorem Resembles.overloads (hst : s.Resembles t) (h : Handle) (name : String) :
    t.overloads h name = s.overloads h name := by
  have hview : ∀ u : Store, u.overloads h name =
    ((u.bare? h).bind fun c => c.members.get? name).getD [] := by
    intro u
    unfold Store.overloads bare?
    cases u.get? h <;> rfl
  rw [hview, hview, hst.bare]

/-- Putting overloads under a name of one composite changes no others. -/
theorem overloads_putMember {c : Composite} (hget : s.get? h = some c) (name : String)
    (put : List Overload) (x : Handle) (other : String) :
    (s.modify h (Composite.putMember name put)).overloads x other =
      if x = h ∧ other = name then put else s.overloads x other := by
  by_cases hx : x = h
  · subst hx
    rw [overloads_of_get? (get?_modify_self _ hget), overloads_of_get? hget, Composite.putMember]
    by_cases hname : other = name
    · subst hname
      rw [if_pos ⟨rfl, rfl⟩]
      exact congrArg (Option.getD · []) (Assoc.get?_put_self ..)
    · rw [if_neg fun h => hname h.2]
      exact congrArg (Option.getD · []) (Assoc.get?_put_ne _ _ fun h => hname h.symm)
  · rw [if_neg fun h => hx h.1, overloads, overloads, get?_modify_ne _ hx]

end Store

/-! ## Settling -/

namespace Run

variable {depth : Nat} {m m' : Machine} {a h : Handle}

/-- A run that came to its end came to the end of its first step. -/
theorem exists_run_of_bind {α β : Type} {x : Run α} {f : α → Run β} {b : β}
    (hrun : (x >>= f) m = .ok (b, m')) : ∃ a m₁, x m = .ok (a, m₁) ∧ f a m₁ = .ok (b, m') := by
  obtain ⟨⟨a, m₁⟩, hx, hf⟩ := exists_of_bind_eq_ok hrun
  exact ⟨a, m₁, hx, hf⟩

/-- What is not kept any more is gone for good, unless its end is under way. -/
theorem destroyIfReleased_quiet_or_ends
    (hrun : destroyIfReleased (rules depth) h m = .ok ((), m')) :
    m' = m ∨ m.store.contains h = true ∧ m'.store.get? h = none := by
  change (if m.store.contains h && !m.isRetained h then (rules depth).destroy h else pure ()) m =
    _ at hrun
  split at hrun
  · rename_i hreleased
    have hthere := (Bool.and_eq_true_iff.mp hreleased).1
    cases depth with
    | zero => cases hrun
    | succ depth =>
      change destroyNow (rules depth) h m = _ at hrun
      by_cases halive : m.store.isAlive h = true
      · obtain ⟨hobeys, hcollects⟩ := Discipline.obeys_lifespans [] depth
        have hended := Discipline.destroyNow_ended hcollects hobeys halive fun x hx =>
          absurd hx List.not_mem_nil
        exact Or.inr ⟨hthere, (hended.post hrun).gone⟩
      · rw [destroyNow_of_not_alive halive] at hrun
        cases hrun
        exact Or.inl rfl
  · cases hrun
    exact Or.inl rfl

/-- Settling one link changes nothing but retainers, or ends a life. -/
theorem retainOrRelease_resembles_or_ends {b : Handle}
    (hrun : retainOrRelease (rules depth) a b m = .ok ((), m')) :
    m.store.Resembles m'.store ∨ m.store.contains b = true ∧ m'.store.get? b = none := by
  change (if m.retains a b then retain a b else release (rules depth) a b) m = _ at hrun
  split at hrun
  · left
    rw [retain] at hrun
    split at hrun
    · cases hrun
      exact .refl _
    · cases hrun
      exact .mapRetainers ..
  · rw [release, store_bind_apply] at hrun
    split at hrun
    · change destroyIfReleased (rules depth) b { m with store := (m.store.modify b fun c =>
        c.mapRetainers fun retainers => retainers.filter (· != a)) } = _ at hrun
      have hstruck := Resembles.mapRetainers m.store b fun retainers => retainers.filter (· != a)
      rcases destroyIfReleased_quiet_or_ends hrun with rfl | ⟨hthere, hgone⟩
      · exact Or.inl hstruck
      · exact Or.inr ⟨(hstruck.contains b).symm.trans hthere, hgone⟩
    · cases hrun
      exact Or.inl (.refl _)

/-- If everything is spared in the end, nothing but retainers has changed: what is gone does not
    come back. -/
theorem forM_retainOrRelease_resembles {handles : List Handle}
    (hrun : handles.forM (retainOrRelease (rules depth) a) m = .ok ((), m'))
    (hspared : ∀ x, m.store.contains x = true → m'.store.contains x = true) :
      m.store.Resembles m'.store := by
  induction handles generalizing m with
  | nil =>
    cases hrun
    exact .refl _
  | cons b rest ih =>
    obtain ⟨_, m₁, hstep, hrest⟩ := exists_run_of_bind hrun
    rcases retainOrRelease_resembles_or_ends hstep with hquiet | ⟨hthere, hgone⟩
    · exact hquiet.trans (ih hrest fun x hx => hspared x ((hquiet.contains x).symm.trans hx))
    · exfalso
      -- The rest of the run only ages the store, and a gap stays a gap.
      obtain ⟨_, hcollects⟩ := Discipline.obeys_lifespans [] depth
      have hfits : ∀ m, (Discipline.lifespans []).Fits m :=
        fun m => Discipline.fits_lifespans fun x hx => absurd hx List.not_mem_nil
      have hfirst := Discipline.permits_lifespans.retainOrRelease hcollects a b (hfits m)
      have hothers := Discipline.Keeps.forM (l := rest)
        (fun x _ _ _ => Discipline.permits_lifespans.retainOrRelease hcollects a x) (hfits m₁)
      have hlt : b.index < m₁.store.size := Nat.lt_of_lt_of_le (index_lt_size_of_contains hthere)
        (hfirst.post hstep).leads.1.size_le
      have hlost := (hothers.post hrest).leads.1.get?_eq_none hlt hgone
      obtain ⟨c, hc⟩ := contains_iff.mp (hspared b hthere)
      rw [hlost] at hc
      cases hc

/-- Putting an overload in changes nothing else, if it ends no life. -/
theorem setMember_resembles {name : String} {overload : Overload} {placement : Placement}
    {result : Option Handle} {owner : Handle} {index : Option Nat} {c : Composite}
    (hrun : setMember (rules depth) h name overload placement m = .ok (result, m'))
    (htarget : placement.target h = (owner, index)) (hget : m.store.get? owner = some c)
    (hspared : ∀ x, m.store.contains x = true → m'.store.contains x = true) :
    (m.store.modify owner (Composite.putMember name
      (placeOverload overload index (m.store.overloads owner name)).2)).Resembles m'.store := by
  rw [setMember, htarget] at hrun
  dsimp only at hrun
  rw [store_bind_apply, hget] at hrun
  obtain ⟨_, _, hput, hrun⟩ := exists_run_of_bind hrun
  obtain ⟨_, _, hreconcile, hreturn⟩ := exists_run_of_bind hrun
  cases hput
  cases hreturn
  rw [overloads_of_get? hget]
  refine forM_retainOrRelease_resembles hreconcile fun x hx => hspared x ?_
  exact (contains_modify _ _ _).symm.trans hx

end Run

/-! ## Mirrors -/

/-- The same slots and the same type, so that lookups go through both in the same way. -/
structure Composite.Alike (c d : Composite) : Prop where
  slots : ∀ slot, d.links.get slot = c.links.get slot
  type : d.type = c.type

theorem Composite.Alike.is {c d : Composite} (h : c.Alike d) (kind : Kind) :
    d.is kind = c.is kind := by
  rw [Composite.is, Composite.is, Composite.kind?, Composite.kind?, h.type]

theorem Composite.alike_of_bare {c d : Composite} (h : d.bare = c.bare) : c.Alike d := by
  refine ⟨fun slot => ?_, ?_⟩
  · rw [← get_bare d, h, get_bare]
  · rw [← type_bare d, h, type_bare]

namespace Lookup

/-- An answer with what is found changed. -/
def Answer.map (change : Resolved → Resolved) : Answer → Answer
  | .found resolved => .found (change resolved)
  | .closed => .closed
  | .ask imports => .ask imports

/-- The same composites with the same links.  About one name, each answers as before, but for a
    change of what is found that keeps what is virtual. -/
structure Mirrors (change : Resolved → Resolved) (name : String) (matching : Matching)
    (L L' : Lookup) : Prop where
  size : L'.store.size = L.store.size
  contains : ∀ h, L'.store.contains h = L.store.contains h
  there : ∀ {h c}, L.store.get? h = some c → ∃ d, L'.store.get? h = some d ∧ c.Alike d ∧
    L'.answer h d name matching = (L.answer h c name matching).map change
  virtual : ∀ r, (change r).overload.hasModifier "virtual" = r.overload.hasModifier "virtual"

/-- Pairs of a trail and its image. -/
def SameLevel (e e' : Handle × Composite) : Prop := e'.1 = e.1 ∧ e.2.Alike e'.2

theorem findSome?_mirrored {α β γ : Type} {R : α → β → Prop} {f : α → Option γ}
    {g : β → Option γ} {φ : γ → γ}
    {l : List α} {l' : List β} (hl : List.Forall₂ R l l') (hfg : ∀ a b, R a b → g b = (f a).map φ) :
    l'.findSome? g = (l.findSome? f).map φ := by
  induction hl with
  | nil => rfl
  | @cons a b rest rest' hab _ ih =>
    rw [List.findSome?_cons, List.findSome?_cons, hfg a b hab]
    cases f a with
    | none => exact ih
    | some found => rfl

namespace Mirrors

variable {change : Resolved → Resolved} {name : String} {matching : Matching} {L L' : Lookup}
  (hL : Mirrors change name matching L L') {h : Handle} {c d : Composite}

include hL

theorem get?_eq_none (hget : L.store.get? h = none) : L'.store.get? h = none := by
  have hcontains := hL.contains h
  rw [Store.contains, Store.contains, hget] at hcontains
  exact Option.isNone_iff_eq_none.mp (by simpa using hcontains)

theorem link? (slot : Slot) (h : Handle) : L'.store.link? slot h = L.store.link? slot h := by
  cases hget : L.store.get? h with
  | none => rw [Store.link?, Store.link?, hget, hL.get?_eq_none hget]
  | some c =>
    obtain ⟨d, hget', halike, _⟩ := hL.there hget
    rw [Store.link?, Store.link?, hget, hget']
    exact halike.slots slot

theorem isKind (kind : Kind) (h : Handle) : L'.store.isKind kind h = L.store.isKind kind h := by
  cases hget : L.store.get? h with
  | none => rw [Store.isKind, Store.isKind, Store.kind?, Store.kind?, hget, hL.get?_eq_none hget]
  | some c =>
    obtain ⟨d, hget', halike, _⟩ := hL.there hget
    rw [Store.isKind, Store.isKind, Store.kind?, Store.kind?, hget, hget']
    exact halike.is kind

theorem memberAmong (steps : Nat) (visited pending : List Handle) :
    L'.memberAmong name matching steps visited pending =
      (L.memberAmong name matching steps visited pending).map change := by
  induction steps generalizing visited pending with
  | zero => rfl
  | succ steps ih =>
    rw [Lookup.memberAmong, Lookup.memberAmong]
    simp only [hL.contains]
    cases pending.dropWhile fun h => visited.contains h || !L.store.contains h with
    | nil => rfl
    | cons h rest =>
      dsimp only
      cases hget : L.store.get? h with
      | none =>
        rw [hL.get?_eq_none hget]
        rfl
      | some c =>
        obtain ⟨d, hget', _, hanswer⟩ := hL.there hget
        rw [hget']
        dsimp only
        rw [hanswer]
        cases L.answer h c name matching with
        | found resolved => rfl
        | closed => exact ih _ _
        | ask imports => exact ih _ _

theorem member? (h : Handle) :
    L'.member? h name matching = (L.member? h name matching).map change := by
  rw [Lookup.member?, hL.size]
  exact hL.memberAmong _ _ _

theorem lowestFrom (steps : Nat) (visited : List Handle) (h : Handle) :
    L'.lowestFrom steps visited h = L.lowestFrom steps visited h := by
  induction steps generalizing visited h with
  | zero => rfl
  | succ steps ih =>
    rw [Lookup.lowestFrom, Lookup.lowestFrom, hL.link?]
    cases L.store.link? .sub h with
    | none => rfl
    | some sub =>
      dsimp only
      rw [ih]

theorem lowestSub (h : Handle) : L'.lowestSub h = L.lowestSub h := by
  rw [Lookup.lowestSub, hL.size]
  exact hL.lowestFrom _ _ _

theorem trailFrom (slot : Slot) (steps : Nat) (visited : List Handle) (start : Option Handle) :
    List.Forall₂ SameLevel (L.store.trailFrom (fun _ c => c.links.get slot) steps visited start)
      (L'.store.trailFrom (fun _ c => c.links.get slot) steps visited start) := by
  induction steps generalizing visited start with
  | zero => exact .nil
  | succ steps ih =>
    cases start with
    | none => exact .nil
    | some h =>
      rw [Store.trailFrom, Store.trailFrom]
      split
      · exact .nil
      · cases hget : L.store.get? h with
        | none =>
          rw [hL.get?_eq_none hget]
          exact .nil
        | some c =>
          obtain ⟨d, hget', halike, _⟩ := hL.there hget
          rw [hget']
          dsimp only
          rw [halike.slots slot]
          exact .cons ⟨rfl, halike⟩ (ih _ _)

theorem slotTrail (slot : Slot) (start : Option Handle) :
    List.Forall₂ SameLevel (L.store.slotTrail slot start) (L'.store.slotTrail slot start) := by
  rw [Store.slotTrail, Store.trail, Store.slotTrail, Store.trail, hL.size]
  exact hL.trailFrom slot _ _ _

theorem firstOn (slot : Slot) (start : Option Handle) :
    L'.firstOn (L'.store.slotTrail slot start) name matching =
      (L.firstOn (L.store.slotTrail slot start) name matching).map fun p => (p.1, change p.2) := by
  refine findSome?_mirrored (hL.slotTrail slot start) fun e e' he => ?_
  dsimp only
  rw [he.1, hL.member?, Option.map_map, Option.map_map]
  rfl

theorem objectOf (halike : c.Alike d) (h : Handle) : L'.objectOf h d = L.objectOf h c := by
  have hcurrent : d.links.current = c.links.current := halike.slots .current
  rw [Lookup.objectOf, Lookup.objectOf, halike.is, hcurrent]
  simp only [hL.isKind]

theorem onObjects (halike : c.Alike d) (h : Handle) :
    L'.onObjects h d name matching = (L.onObjects h c name matching).map change := by
  rw [Lookup.onObjects, Lookup.onObjects]
  dsimp only
  rw [hL.objectOf halike, hL.firstOn]
  cases L.firstOn (L.store.slotTrail .super (L.objectOf h c)) name matching with
  | none => rfl
  | some p =>
    obtain ⟨level, found⟩ := p
    dsimp only [Option.map_some]
    rw [hL.virtual, hL.lowestSub, hL.firstOn]
    split
    · rw [Option.map_map, Option.map_map]
      rfl
    · rfl

theorem onTypes (halike : c.Alike d) (h : Handle) :
    L'.onTypes h d name matching = (L.onTypes h c name matching).map change := by
  have hself : d.links.currentType = c.links.currentType := halike.slots .currentType
  rw [Lookup.onTypes, Lookup.onTypes]
  rw [halike.is, hself, hL.firstOn, Option.map_map, Option.map_map]
  rfl

theorem onLevel (halike : c.Alike d) (h : Handle) :
    L'.onLevel h d name matching = (L.onLevel h c name matching).map change := by
  rw [Lookup.onLevel, Lookup.onLevel]
  rw [halike.is, halike.is, hL.onObjects halike, hL.onTypes halike, hL.member?]
  simp only [Option.map_or]
  split
  · rfl
  · rfl

/-- A lookup goes the same way and finds what it found, changed. -/
theorem find? (start : Handle) (internal : Bool) :
    L'.find? start name matching internal = (L.find? start name matching internal).map change := by
  have hlevel : ∀ e e', SameLevel e e' →
      L'.onLevel e'.1 e'.2 name matching = (L.onLevel e.1 e.2 name matching).map change := by
    intro e e' he
    rw [he.1]
    exact hL.onLevel he.2 e.1
  rw [Lookup.find?, Lookup.find?]
  dsimp only
  split
  · exact findSome?_mirrored (List.forall₂_take 1 (hL.slotTrail .scope (some start))) hlevel
  · exact findSome?_mirrored (hL.slotTrail .scope (some start)) hlevel

end Mirrors

/-! ## Selection -/

variable {α : Type} {holds : α → Bool} {items : List α} {a : α} {i : Nat}

theorem lastWhere_concat (holds : α → Bool) (items : List α) (a : α) :
    lastWhere holds (items ++ [a]) = if holds a then some (a, items.length) else
      lastWhere holds items := by
  rw [lastWhere, List.zipIdx_append, List.reverse_append]
  simp only [List.zipIdx_singleton, Nat.zero_add, List.reverse_singleton,
    List.singleton_append, List.find?_cons]
  split
  · rename_i h
    rw [if_pos h]
  · rename_i h
    rw [if_neg (by simp [h])]
    rfl

/-- The last place where something holds is one behind which it does not. -/
theorem lastWhere_eq_some_iff : lastWhere holds items = some (a, i) ↔
    items[i]? = some a ∧ holds a = true ∧ ∀ j b, i < j → items[j]? = some b → holds b = false := by
  induction items using List.reverseRecOn with
  | nil => simp [lastWhere]
  | append_singleton items last ih =>
    rw [lastWhere_concat]
    by_cases hlast : holds last = true
    · rw [if_pos hlast]
      constructor
      · grind
      · rintro ⟨hget, _, hbehind⟩
        have hnothing := hbehind items.length last
        grind
    · rw [if_neg hlast, ih]
      constructor
      · grind
      · rintro ⟨hget, ha, hbehind⟩
        exact ⟨by grind, ha, fun j b hj hb => hbehind j b hj (by grind)⟩

variable {L L' : Lookup} {overloads : List Overload} {index : Nat}
  {picked : Option Handle} {h : Handle}
  {c d : Composite} {name : String} {matching : Matching} {resolved : Resolved}

/-- What is read is the last overload with a value; none behind it has one. -/
theorem select_property (hselect : L.select overloads .property = some (index, picked)) :
    ∃ overload, overloads[index]? = some overload ∧ picked = named overload ∧
      ∀ j later, index < j → overloads[j]? = some later → later.value = none := by
  obtain ⟨⟨overload, place⟩, hfound, hpair⟩ := Option.map_eq_some_iff.mp hselect
  obtain ⟨rfl, rfl⟩ := Prod.mk.inj hpair
  rcases Option.or_eq_some_iff.mp hfound with hlast | ⟨_, hend⟩
  · obtain ⟨hget, _, hbehind⟩ := lastWhere_eq_some_iff.mp hlast
    exact ⟨overload, hget, rfl, fun j later hj hlater => by simpa using hbehind j later hj hlater⟩
  · have hmem := List.mk_mem_zipIdx_iff_getElem?.mp (List.mem_of_getLast? hend)
    refine ⟨overload, hmem, rfl, fun j later hj hlater => ?_⟩
    rw [List.getLast?_eq_getElem?, List.getElem?_zipIdx, List.length_zipIdx] at hend
    obtain ⟨_, _, hplace⟩ := Option.map_eq_some_iff.mp hend
    have hlt := (List.getElem?_eq_some_iff.mp hlater).1
    have hplace := (Prod.mk.inj hplace).2
    omega

/-- An overload that is read and gets another value is read again, unless the value is nil and there
    are others. -/
theorem select_set {value : Option Value} {overload : Overload}
    (hselect : L.select overloads .property = some (index, picked))
    (hget : overloads[index]? = some overload)
    (hvalue : value.isSome = true ∨ overloads.length = 1) :
    L'.select (overloads.set index { overload with value }) .property =
      some (index, value.bind Value.handle?) := by
  obtain ⟨_, _, _, hbehind⟩ := select_property hselect
  have hlt := (List.getElem?_eq_some_iff.mp hget).1
  rcases hvalue with hvalue | hsingle
  · have hlast : lastWhere (·.value.isSome) (overloads.set index { overload with value }) =
        some ({ overload with value }, index) := by
      refine lastWhere_eq_some_iff.mpr ⟨List.getElem?_set_self hlt, hvalue,
        fun j later hj hlater => ?_⟩
      rw [List.getElem?_set_ne (by omega)] at hlater
      rw [hbehind j later hj hlater]
      rfl
    rw [select, select?, hlast]
    rfl
  · obtain ⟨only, rfl⟩ := List.length_eq_one_iff.mp hsingle
    obtain rfl : index = 0 := by simpa using hlt
    cases value <;> rfl

theorem lastWhere_value (overloads : List Overload) :
    (lastWhere (·.value.isSome) overloads).bind (·.1.value) =
    (overloads.filterMap (·.value)).getLast? := by
  induction overloads using List.reverseRecOn with
  | nil => rfl
  | append_singleton overloads last ih =>
    rw [lastWhere_concat, List.filterMap_append, List.getLast?_append, ← ih]
    cases hlast : last.value with
    | none => simp [hlast]
    | some value => simp [hlast]

/-- Of overloads with values, the last value is read. -/
theorem exists_select_property (L : Lookup) (hne : overloads ≠ []) :
    ∃ index picked overload, L.select overloads .property = some (index, picked) ∧
      overloads[index]? = some overload ∧
        overload.value = (overloads.filterMap (·.value)).getLast? := by
  have hvalue := lastWhere_value overloads
  cases hlast : lastWhere (·.value.isSome) overloads with
  | some found =>
    obtain ⟨overload, index⟩ := found
    rw [hlast] at hvalue
    exact ⟨index, _,
      overload, by rw [select, select?, hlast]; rfl, (lastWhere_eq_some_iff.mp hlast).1, hvalue⟩
  | none =>
    rw [hlast] at hvalue
    have hnone : overloads.filterMap (·.value) = [] := List.getLast?_eq_none_iff.mp hvalue.symm
    obtain ⟨⟨overload, index⟩, hend⟩ : ∃ found, overloads.zipIdx.getLast? = some found :=
      Option.isSome_iff_exists.mp (by simpa using hne)
    have hget := List.mk_mem_zipIdx_iff_getElem?.mp (List.mem_of_getLast? hend)
    refine ⟨index, _, overload, by rw [select, select?, hlast, hend]; rfl, hget, ?_⟩
    rw [← hvalue]
    exact List.filterMap_eq_nil_iff.mp hnone overload (List.mem_of_getElem? hget)

/-- What is found is found on the composite that answers.  It stands for a composite, or it is a
    member and stands where its index says. -/
theorem answer_eq_found (hanswer : L.answer h c name matching = .found resolved) :
    resolved.owner = h ∧
      ((resolved.index = none ∧ ∃ target, resolved.overload.value = some (.reference target)) ∨
      ∃ index, resolved.index = some index ∧
        L.select ((c.members.get? name).getD []) matching = some (index, resolved.matching) ∧
          ((c.members.get? name).getD [])[index]? = some resolved.overload) := by
  have hfinal : ∀ o, Answer.final o = .found resolved → o = some resolved := by
    intro o ho
    cases o with
    | none => cases ho
    | some found =>
      cases ho
      rfl
  have hsynthesized : ∀ target, Answer.final (L.synthesized h target matching) = .found resolved →
      resolved.owner = h ∧ resolved.index = none ∧ ∃ target,
      resolved.overload.value = some (.reference target) := by
    intro target htarget
    obtain ⟨_, _, rfl⟩ := Option.map_eq_some_iff.mp (hfinal _ htarget)
    exact ⟨rfl, rfl, target, rfl⟩
  unfold answer at hanswer
  dsimp only at hanswer
  split at hanswer
  · rename_i index picked hselect
    obtain ⟨overload, hget, rfl⟩ := Option.map_eq_some_iff.mp (hfinal _ hanswer)
    exact ⟨rfl, Or.inr ⟨index, rfl, hselect, hget⟩⟩
  · split at hanswer
    · exact (hsynthesized _ hanswer).imp_right Or.inl
    · split at hanswer
      · split at hanswer
        · exact (hsynthesized _ hanswer).imp_right Or.inl
        · cases hanswer
      · cases hanswer

/-- An overload that is selected is the answer. -/
theorem answer_of_select {overload : Overload}
    (hselect : L.select ((c.members.get? name).getD []) matching = some (index, picked))
    (hget : ((c.members.get? name).getD [])[index]? = some overload) (h : Handle) :
    L.answer h c name matching = .found ⟨h, some index, overload, picked⟩ := by
  rw [answer, hselect]
  dsimp only
  rw [hget]
  rfl

/-- What a namespace answers itself is what a lookup from there finds. -/
theorem find?_of_answer (hget : L.store.get? h = some c) (hspace : c.is .namespace = true)
    (hanswer : L.answer h c name matching = .found resolved) (internal : Bool) :
    L.find? h name matching internal = some resolved := by
  obtain ⟨steps, hsteps⟩ : ∃ steps, L.store.size = steps + 1 :=
    Nat.exists_eq_succ_of_ne_zero (Nat.ne_of_gt (Nat.zero_lt_of_lt (index_lt_size hget)))
  have hmember : L.member? h name matching = some resolved := by
    have hthere : L.store.contains h = true := contains_of_get? hget
    rw [member?, hsteps, memberAmong]
    simp only [List.dropWhile, List.contains_nil, hthere, Bool.not_true,
      Bool.or_self, hget, hanswer]
  have hlevel : L.onLevel h c name matching = some resolved := by
    rw [onLevel, hspace, Bool.or_true, if_pos rfl, hmember]
    rfl
  have hlevels : ∃ above, L.store.slotTrail .scope (some h) = (h, c) :: above := by
    rw [Store.slotTrail, Store.trail, hsteps, Store.trailFrom, hget]
    exact ⟨_, rfl⟩
  obtain ⟨above, habove⟩ := hlevels
  rw [find?, habove]
  cases internal <;> simp [hlevel]

/-- Whatever a lookup finds, some composite answered with it. -/
theorem exists_answer_of_memberAmong {steps : Nat} {visited pending : List Handle}
    (hfound : L.memberAmong name matching steps visited pending = some resolved) :
    ∃ h c, L.store.get? h = some c ∧ L.answer h c name matching = .found resolved := by
  induction steps generalizing visited pending with
  | zero => cases hfound
  | succ steps ih =>
    rw [memberAmong] at hfound
    split at hfound
    · cases hfound
    · split at hfound
      · cases hfound
      · rename_i h _ _ _ c hget
        split at hfound
        · rename_i found hanswer
          cases hfound
          exact ⟨h, c, hget, hanswer⟩
        · exact ih hfound
        · exact ih hfound

theorem exists_answer_of_firstOn {trail : List (Handle × Composite)} {p : Handle × Resolved}
    (hfound : L.firstOn trail name matching = some p) :
    ∃ h c, L.store.get? h = some c ∧ L.answer h c name matching = .found p.2 := by
  obtain ⟨_, _, hmember⟩ := List.exists_of_findSome?_eq_some hfound
  obtain ⟨resolved, hresolved, rfl⟩ := Option.map_eq_some_iff.mp hmember
  exact exists_answer_of_memberAmong hresolved

theorem exists_answer_of_onObjects (hfound : L.onObjects h c name matching = some resolved) :
    ∃ h c, L.store.get? h = some c ∧ L.answer h c name matching = .found resolved := by
  rw [onObjects] at hfound
  dsimp only at hfound
  split at hfound
  · cases hfound
  · rename_i level found hfirst
    split at hfound
    · obtain ⟨p, hp, rfl⟩ := Option.map_eq_some_iff.mp hfound
      exact exists_answer_of_firstOn hp
    · cases hfound
      exact exists_answer_of_firstOn hfirst

theorem exists_answer_of_find? {start : Handle} {internal : Bool}
    (hfound : L.find? start name matching internal = some resolved) :
    ∃ h c, L.store.get? h = some c ∧ L.answer h c name matching = .found resolved := by
  obtain ⟨_, _, hlevel⟩ := List.exists_of_findSome?_eq_some hfound
  rcases Option.or_eq_some_iff.mp hlevel with hown | ⟨_, habove⟩
  · split at hown
    · exact exists_answer_of_memberAmong hown
    · cases hown
  · rcases Option.or_eq_some_iff.mp habove with hobjects | ⟨_, htypes⟩
    · exact exists_answer_of_onObjects hobjects
    · obtain ⟨p, hp, rfl⟩ := Option.map_eq_some_iff.mp htypes
      exact exists_answer_of_firstOn hp

/-- Reading a name asks a composite for nothing that its retainers decide. -/
theorem answer_of_bare (hfirst : L'.store.handleAt? 0 = L.store.handleAt? 0)
    (hbare : d.bare = c.bare) : L'.answer h d name .property = L.answer h c name .property := by
  have hmembers : d.bare.members = c.bare.members := by rw [hbare]
  have himports : d.bare.imports = c.bare.imports := by rw [hbare]
  have halike := alike_of_bare hbare
  have hpseudo : L'.pseudo d name = L.pseudo c name := by
    rw [pseudo, pseudo, hfirst]
    simp only [halike.slots]
  change d.members = c.members at hmembers
  change d.imports = c.imports at himports
  rw [answer, answer, hmembers, himports, hpseudo, halike.is]
  rfl

end Lookup

/-- What was found, with another value if it is a member of a composite. -/
def Resolved.holding (owner : Handle) (value : Option Value) (r : Resolved) : Resolved :=
  if r.owner = owner ∧ r.index.isSome = true then
    { r with overload := { r.overload with value }, matching := value.bind Value.handle? }
  else r

namespace Lookup

variable {L L' : Lookup} {name : String} {resolved : Resolved} {index : Nat} {value : Option Value}

/-- A composite that gets another value where it was read answers with the same overload. -/
theorem answer_of_set {h : Handle} {c d : Composite}
    (hanswer : L.answer h c name .property = .found resolved) (hindex : resolved.index = some index)
    (hvalue : value.isSome = true ∨ ((c.members.get? name).getD []).length = 1)
    (hset : (d.members.get? name).getD [] =
      ((c.members.get? name).getD []).set index { resolved.overload with value }) :
    L'.answer h d name .property = .found (resolved.holding h value) := by
  obtain ⟨howner, ⟨hnone, _⟩ | ⟨place, hplace, hselect, hoverload⟩⟩ := answer_eq_found hanswer
  · rw [hindex] at hnone
    cases hnone
  obtain rfl : place = index := Option.some.inj (hplace.symm.trans hindex)
  have hlt := (List.getElem?_eq_some_iff.mp hoverload).1
  rw [Resolved.holding, if_pos ⟨howner, by rw [hindex]; rfl⟩, howner, hindex]
  refine answer_of_select ?_ ?_ h
  · rw [hset]
    exact select_set hselect hoverload hvalue
  · rw [hset]
    exact List.getElem?_set_self hlt

/-- After another value is put where a name is read, and nothing else is changed, all lookups of the
    name find what they found before. -/
theorem mirrors_of_put {c : Composite} (hget : L.store.get? resolved.owner = some c)
    (hanswer : L.answer resolved.owner c name .property = .found resolved)
    (hindex : resolved.index = some index)
    (hvalue : value.isSome = true ∨ (L.store.overloads resolved.owner name).length = 1)
    (hput : (L.store.modify resolved.owner (Composite.putMember name
      ((L.store.overloads resolved.owner name).set index { resolved.overload with
        value }))).Resembles L'.store) :
    L.Mirrors (Resolved.holding resolved.owner value) name .property L' := by
  have hcontains : ∀ h, L'.store.contains h = L.store.contains h :=
    fun h => (hput.contains h).trans (contains_modify _ _ _)
  have hfirst : L'.store.handleAt? 0 = L.store.handleAt? 0 :=
    Option.ext fun a => by rw [handleAt?_eq_some_iff, handleAt?_eq_some_iff, hcontains]
  refine ⟨hput.size.trans (size_modify _ _), hcontains, fun {h c₀} hget₀ => ?_, fun r => ?_⟩
  -- The owner alone has other members than before, and it answers with the overload that it
  -- answered with.
  · by_cases howner : h = resolved.owner
    · subst howner
      obtain rfl : c₀ = c := Option.some.inj (hget₀.symm.trans hget)
      obtain ⟨d, hget', hbare⟩ := hput.get? (get?_modify_self _ hget)
      have halike := alike_of_bare hbare
      refine ⟨d, hget', ⟨halike.slots, halike.type⟩, ?_⟩
      rw [overloads_of_get? hget] at hvalue
      rw [hanswer, Answer.map]
      refine answer_of_set hanswer hindex hvalue ?_
      rw [← overloads_of_get? hget', ← overloads_of_get? hget, hput.overloads,
        overloads_putMember hget, if_pos ⟨rfl, rfl⟩]
    · obtain ⟨d, hget', hbare⟩ := hput.get? ((get?_modify_ne _ howner).trans hget₀)
      refine ⟨d, hget', alike_of_bare hbare, ?_⟩
      rw [answer_of_bare hfirst hbare]
      cases hanswer₀ : L.answer h c₀ name .property with
      | found r =>
        have hne : r.owner ≠ resolved.owner := by rwa [(answer_eq_found hanswer₀).1]
        rw [Answer.map, Resolved.holding, if_neg fun hr => hne hr.1]
      | closed => rfl
      | ask imports => rfl
  · rw [Resolved.holding]
    split
    · rfl
    · rfl

end Lookup

end CompositeGraph
