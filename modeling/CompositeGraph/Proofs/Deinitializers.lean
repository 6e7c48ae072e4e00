/-
  DEINITIALIZERS: which of them the objects of an instance run.

  An instance is a chain of objects, one for its class and one for each class above.  Each of them
  is destroyed for itself, and runs the first deinitializer that is declared from its own class
  upwards.  So the object of the class that declares a deinitializer runs it, and each object below
  runs it once more, down to the first whose class declares one itself.

    1. DECLARED.  The deinitializer that stands in a composite, and the one
                  that is found on a trail.
    2. CLIMBS.    Trails that are known as a whole.
    3. CHAINS.    The deinitializer of each object of an instance.
    4. RUNS.      What is called when one of them is destroyed.
-/
import CompositeGraph.Proofs.Instances

namespace CompositeGraph

open Run Store

/-! ## Declared -/

namespace Lookup

variable {lookup : Lookup} {h : Handle} {c : Composite}

/-- The deinitializer that stands in a composite itself. -/
def declared? (lookup : Lookup) (h : Handle) : Option Handle :=
  (lookup.select (((lookup.store.get? h).bind (·.members.get? "deinit")).getD [])
    (.call [])).bind (·.2)

/-- What is selected for a call is a function in one of the overloads. -/
theorem select_call {overloads : List Overload} {arguments : List Argument} {index : Nat}
    {picked : Option Handle}
    (hselect : lookup.select overloads (.call arguments) = some (index, picked)) :
    (∃ overload, overloads[index]? = some overload) ∧ ∃ function, picked = some function := by
  obtain ⟨⟨overload, place⟩, hmem, hfound⟩ :=
    Discipline.exists_of_findSomeM?_eq_some (Option.join_eq_some_iff.mp hselect)
  obtain ⟨_, _, hpicked⟩ := Option.bind_eq_some_iff.mp hfound
  obtain ⟨function, _, heq⟩ := Option.map_eq_some_iff.mp (Option.some.inj hpicked)
  obtain ⟨rfl, rfl⟩ := Prod.mk.inj heq
  exact ⟨⟨overload, List.mk_mem_zipIdx_iff_getElem?.mp hmem⟩, function, rfl⟩

/-- A composite without imports has no deinitializer but the one that stands in it. -/
theorem member?_deinit (hc : lookup.store.get? h = some c) (hspace : c.is .namespace = false) :
    (lookup.member? h "deinit" (.call [])).map (·.matching) = (lookup.declared? h).map some := by
  obtain ⟨steps, hsteps⟩ : ∃ steps, lookup.store.size = steps + 1 :=
    Nat.exists_eq_succ_of_ne_zero (Nat.ne_of_gt (Nat.zero_lt_of_lt (index_lt_size hc)))
  have hthere : lookup.store.contains h = true := contains_of_get? hc
  have hpseudo : lookup.pseudo c "deinit" = none := rfl
  rw [member?, hsteps, memberAmong, declared?, hc, Option.bind_some]
  simp only [List.dropWhile, List.contains_nil, hthere, Bool.not_true, Bool.or_self, hc,
    answer, hpseudo, hspace]
  cases hselect : lookup.select ((c.members.get? "deinit").getD []) (.call []) with
  | none =>
    cases steps <;> rfl
  | some found =>
    obtain ⟨index, picked⟩ := found
    obtain ⟨⟨overload, hoverload⟩, function, rfl⟩ := select_call hselect
    simp only [hoverload]
    rfl

/-- On a trail, the deinitializer of the first composite that has one is found. -/
theorem firstOn_deinit {trail : List (Handle × Composite)}
    (htrail : ∀ e ∈ trail, lookup.store.get? e.1 = some e.2 ∧ e.2.is .namespace = false) :
    (lookup.firstOn trail "deinit" (.call [])).map (·.2.matching) =
      ((trail.map (·.1)).findSome? lookup.declared?).map some := by
  induction trail with
  | nil => rfl
  | cons e trail ih =>
    obtain ⟨level, c⟩ := e
    obtain ⟨⟨hc, hspace⟩, hrest⟩ := List.forall_mem_cons.mp htrail
    have hmember := member?_deinit hc hspace
    have hnext := ih hrest
    rw [firstOn] at hnext ⊢
    rw [List.findSome?_cons, List.map_cons, List.findSome?_cons]
    dsimp only
    cases hdeclared : lookup.declared? level with
    | none =>
      rw [hdeclared] at hmember
      rw [Option.map_eq_none_iff.mp hmember]
      exact hnext
    | some function =>
      rw [hdeclared] at hmember
      obtain ⟨resolved, hresolved, hmatching⟩ := Option.map_eq_some_iff.mp hmember
      rw [hresolved]
      exact congrArg some hmatching

/-- On its own level, only the composite itself is looked at. -/
theorem find?_internal (hc : lookup.store.get? h = some c) (identifier : String)
    (matching : Matching) :
    lookup.find? h identifier matching true = lookup.onLevel h c identifier matching := by
  obtain ⟨steps, hsteps⟩ : ∃ steps, lookup.store.size = steps + 1 :=
    Nat.exists_eq_succ_of_ne_zero (Nat.ne_of_gt (Nat.zero_lt_of_lt (index_lt_size hc)))
  have hlevels : (lookup.store.slotTrail .scope (some h)).take 1 = [(h, c)] := by
    rw [Store.slotTrail, Store.trail, hsteps, Store.trailFrom, hc]
    rfl
  rw [find?, if_pos rfl, hlevels, List.findSome?_cons, List.findSome?_nil]
  dsimp only
  cases lookup.onLevel h c identifier matching <;> rfl

end Lookup

/-! ## Climbs -/

namespace Store

variable {s : Store} {slot : Slot} {handles : List Handle}

/-- A trail as a whole: each composite is linked to the next one and the last to none, and none is
    met twice. -/
def Climbs (s : Store) (slot : Slot) : List Handle → Prop
  | [] => True
  | h :: rest => s.contains h = true ∧ s.link? slot h = rest.head? ∧ h ∉ rest ∧ s.Climbs slot rest

instance Climbs.decidable : (handles : List Handle) → Decidable (s.Climbs slot handles)
  | [] => isTrue trivial
  | h :: rest =>
    have : Decidable (s.Climbs slot rest) := Climbs.decidable rest
    inferInstanceAs (Decidable (s.contains h = true ∧ s.link? slot h = rest.head? ∧ h ∉ rest ∧
      s.Climbs slot rest))

theorem Climbs.drop (hclimbs : s.Climbs slot handles) (n : Nat) :
    s.Climbs slot (handles.drop n) := by
  induction n generalizing handles with
  | zero => exact hclimbs
  | succ n ih =>
    cases handles with
    | nil => exact hclimbs
    | cons h rest => exact ih hclimbs.2.2.2

theorem Climbs.nodup (hclimbs : s.Climbs slot handles) : handles.Nodup := by
  induction handles with
  | nil => exact List.nodup_nil
  | cons h rest ih => exact List.nodup_cons.mpr ⟨hclimbs.2.2.1, ih hclimbs.2.2.2⟩

theorem Climbs.contains (hclimbs : s.Climbs slot handles) : ∀ h ∈ handles, s.contains h = true := by
  induction handles with
  | nil => exact fun _ hmem => absurd hmem List.not_mem_nil
  | cons h rest ih => exact List.forall_mem_cons.mpr ⟨hclimbs.1, ih hclimbs.2.2.2⟩

/-- It is what a walk along the slot meets, if there are steps enough. -/
theorem Climbs.trailFrom (hclimbs : s.Climbs slot handles) {steps : Nat}
    (hsteps : handles.length ≤ steps) {visited : List Handle} (hnew : ∀ h ∈ handles, h ∉ visited) :
    (s.trailFrom (fun _ composite => composite.links.get slot) steps visited handles.head?).map
    (·.1) = handles := by
  induction handles generalizing steps visited with
  | nil => cases steps <;> rfl
  | cons h rest ih =>
    obtain ⟨hthere, hlink, honce, hrest⟩ := hclimbs
    obtain ⟨steps, rfl⟩ :=
      Nat.exists_eq_succ_of_ne_zero (Nat.ne_of_gt (Nat.lt_of_lt_of_le (Nat.succ_pos _) hsteps))
    obtain ⟨c, hc⟩ := contains_iff.mp hthere
    have hnext : c.links.get slot = rest.head? := by rw [← hlink, link?, hc, Option.bind_some]
    have hfirst : visited.contains h = false := by simpa using hnew h List.mem_cons_self
    have hlater : ∀ x ∈ rest, x ∉ h :: visited := by
      intro x hx hmem
      rcases List.mem_cons.mp hmem with rfl | hmem
      · exact honce hx
      · exact hnew x (List.mem_cons_of_mem _ hx) hmem
    simp only [List.head?_cons, Store.trailFrom, hfirst, hc, hnext, List.map_cons,
      Bool.false_eq_true, if_false]
    rw [ih hrest (Nat.le_of_succ_le_succ hsteps) hlater]

theorem Climbs.slotTrail (hclimbs : s.Climbs slot handles) :
    (s.slotTrail slot handles.head?).map (·.1) = handles :=
  hclimbs.trailFrom (length_le_size hclimbs.nodup hclimbs.contains) fun _ _ => List.not_mem_nil

end Store

/-- Where a trail is known as a whole and has no imports, so is what is found on it. -/
theorem Lookup.firstOn_deinit_of_climbs (lookup : Lookup) {slot : Slot} {handles : List Handle}
    (hclimbs : lookup.store.Climbs slot handles)
    (hspaces : ∀ h ∈ handles, lookup.store.isKind .namespace h = false) :
    (lookup.firstOn (lookup.store.slotTrail slot handles.head?) "deinit" (.call [])).map
    (·.2.matching) =
      (handles.findSome? lookup.declared?).map some := by
  have htrail := hclimbs.slotTrail
  rw [Lookup.firstOn_deinit, htrail]
  intro e he
  have hget : lookup.store.get? e.1 = some e.2 := get?_of_mem_trailFrom he
  have hspace := hspaces e.1 (htrail ▸ List.mem_map_of_mem he)
  rw [Store.isKind, Store.kind?, hget] at hspace
  exact ⟨hget, hspace⟩

/-! ## Chains -/

namespace Machine

variable {m : Machine} {chain : List (Handle × Handle)}

/-- The objects of an instance with their classes, the lowest first.  Each object is linked to the
    next one and each class to the next one; no object has a deinitializer of its own, and no two
    classes have the same. -/
structure Instance (m : Machine) (chain : List (Handle × Handle)) : Prop where
  supers : m.store.Climbs .super (chain.map (·.1))
  lineage : m.store.Climbs .superType (chain.map (·.2))
  objects : ∀ p ∈ chain, m.store.isKind .object p.1 = true ∧
    m.store.link? .currentType p.1 = some p.2 ∧
    m.lookup.declared? p.1 = none
  classes : ∀ p ∈ chain, m.store.isKind .namespace p.2 = false
  apart : ∀ p ∈ chain, ∀ q ∈ chain, (m.lookup.declared? p.2).isSome = true →
    m.lookup.declared? p.2 = m.lookup.declared? q.2 → p = q

instance : Decidable (m.Instance chain) :=
  decidable_of_iff (m.store.Climbs .super (chain.map (·.1)) ∧
    m.store.Climbs .superType (chain.map (·.2)) ∧
      (∀ p ∈ chain, m.store.isKind .object p.1 = true ∧ m.store.link? .currentType p.1 = some p.2 ∧
        m.lookup.declared? p.1 = none) ∧
      (∀ p ∈ chain, m.store.isKind .namespace p.2 = false) ∧
      ∀ p ∈ chain, ∀ q ∈ chain, (m.lookup.declared? p.2).isSome = true →
        m.lookup.declared? p.2 = m.lookup.declared? q.2 → p = q)
    ⟨fun ⟨hs, hl, ho, hc, ha⟩ => ⟨hs, hl, ho, hc, ha⟩, fun h =>
      ⟨h.supers, h.lineage, h.objects, h.classes, h.apart⟩⟩

namespace Instance

/-- The objects from some level upwards are an instance too. -/
theorem drop (h : m.Instance chain) (n : Nat) : m.Instance (chain.drop n) where
  supers := List.map_drop ▸ h.supers.drop n
  lineage := List.map_drop ▸ h.lineage.drop n
  objects p hp := h.objects p (List.mem_of_mem_drop hp)
  classes p hp := h.classes p (List.mem_of_mem_drop hp)
  apart p hp q hq := h.apart p (List.mem_of_mem_drop hp) q (List.mem_of_mem_drop hq)

theorem objects_spaces (h : m.Instance chain) :
    ∀ x ∈ chain.map (·.1), m.store.isKind .namespace x = false := by
  intro x hx
  obtain ⟨p, hp, rfl⟩ := List.mem_map.mp hx
  have hkind : m.store.kind? p.1 = some .object := eq_of_beq (h.objects p hp).1
  rw [Store.isKind, hkind]
  rfl

theorem classes_spaces (h : m.Instance chain) :
    ∀ x ∈ chain.map (·.2), m.store.isKind .namespace x = false := by
  intro x hx
  obtain ⟨p, hp, rfl⟩ := List.mem_map.mp hx
  exact h.classes p hp

section Head

variable {p : Handle × Handle} {above : List (Handle × Handle)} {c : Composite}
  (h : m.Instance (p :: above))
  (hobject : c.is .object = true)

include h hobject

/-- Nothing stands in the objects. -/
theorem onObjects_eq_none : m.lookup.onObjects p.1 c "deinit" (.call []) = none := by
  have hnone : ((p :: above).map (·.1)).findSome? m.lookup.declared? = none := by
    refine List.findSome?_eq_none_iff.mpr fun x hx => ?_
    obtain ⟨q, hq, rfl⟩ := List.mem_map.mp hx
    exact (h.objects q hq).2.2
  have hfirst := m.lookup.firstOn_deinit_of_climbs h.supers h.objects_spaces
  rw [hnone, List.map_cons, List.head?_cons] at hfirst
  have hstart : m.lookup.objectOf p.1 c = some p.1 := if_pos hobject
  rw [Lookup.onObjects, hstart]
  dsimp only
  rw [Option.map_eq_none_iff.mp hfirst]

/-- So the classes are asked, from its own upwards. -/
theorem onTypes_matching (hself : c.links.currentType = some p.2) :
    (m.lookup.onTypes p.1 c "deinit" (.call [])).bind (·.matching) =
      (p :: above).findSome? fun q => m.lookup.declared? q.2 := by
  have htypes : (m.lookup.onTypes p.1 c "deinit" (.call [])).map (·.matching) =
      ((p :: above).findSome? fun q => m.lookup.declared? q.2).map some := by
    have hfirst := m.lookup.firstOn_deinit_of_climbs h.lineage h.classes_spaces
    rw [List.findSome?_map] at hfirst
    rw [Lookup.onTypes, if_pos hobject, hself, Option.map_map]
    exact hfirst
  calc (m.lookup.onTypes p.1 c "deinit" (.call [])).bind (·.matching)
      = ((m.lookup.onTypes p.1 c "deinit" (.call [])).map (·.matching)).join := by
        cases m.lookup.onTypes p.1 c "deinit" (.call []) <;> rfl
    _ = (p :: above).findSome? fun q => m.lookup.declared? q.2 := by
        rw [htypes]
        cases (p :: above).findSome? fun q => m.lookup.declared? q.2 <;> rfl

end Head

/-- The lowest object runs the first deinitializer that its class or one above declares. -/
theorem deinitializer?_head {p : Handle × Handle} {above : List (Handle × Handle)}
    (h : m.Instance (p :: above)) :
    m.deinitializer? p.1 = (p :: above).findSome? fun q => m.lookup.declared? q.2 := by
  obtain ⟨hkind, hclass, _⟩ := h.objects p List.mem_cons_self
  obtain ⟨c, hc⟩ : ∃ c, m.store.get? p.1 = some c := contains_iff.mp h.supers.1
  have hself : c.links.currentType = some p.2 := by
    rwa [Store.link?, hc] at hclass
  have hkind : c.kind? = some .object := by
    have hkind : m.store.kind? p.1 = some .object := eq_of_beq hkind
    rwa [Store.kind?, hc] at hkind
  have hobject : c.is .object = true := by rw [Composite.is, hkind]; rfl
  have hfunction : c.is .function = false := by rw [Composite.is, hkind]; rfl
  have hspace : c.is .namespace = false := by rw [Composite.is, hkind]; rfl
  rw [deinitializer?, Lookup.find?_internal hc, Lookup.onLevel, h.onObjects_eq_none hobject,
    hfunction, hspace]
  exact h.onTypes_matching hobject hself

/-- So each object runs the first deinitializer that is declared from its class upwards. -/
theorem deinitializer?_eq (h : m.Instance chain) {i : Nat} {p : Handle × Handle}
    (hp : chain[i]? = some p) :
    m.deinitializer? p.1 = (chain.drop i).findSome? fun q => m.lookup.declared? q.2 := by
  obtain ⟨hi, rfl⟩ := List.getElem?_eq_some_iff.mp hp
  have hdrop := h.drop i
  rw [List.drop_eq_getElem_cons hi] at hdrop ⊢
  exact hdrop.deinitializer?_head

/-- A deinitializer stands on one level only. -/
theorem level_eq (h : m.Instance chain) {i k : Nat} {p q : Handle × Handle} {function : Handle}
    (hp : chain[k]? = some p) (hdeclared : m.lookup.declared? p.2 = some function)
    (hq : chain[i]? = some q) (hsame : m.lookup.declared? q.2 = some function) : i = k := by
  have heq : p = q :=
    h.apart p (List.mem_of_getElem? hp) q (List.mem_of_getElem? hq) (by rw [hdeclared]; rfl)
    (hdeclared.trans hsame.symm)
  have hnodup : chain.Nodup := h.supers.nodup.of_map _
  obtain ⟨hi, rfl⟩ := List.getElem?_eq_some_iff.mp hq
  obtain ⟨hk, rfl⟩ := List.getElem?_eq_some_iff.mp hp
  exact (hnodup.getElem_inj_iff.mp heq).symm

/-- The deinitializer of a class is that of its own object, and of those below it down to the first
    whose class declares one. -/
theorem deinitializer?_iff (h : m.Instance chain) {i k : Nat} {p q : Handle × Handle}
    {function : Handle}
    (hp : chain[k]? = some p) (hdeclared : m.lookup.declared? p.2 = some function)
    (hq : chain[i]? = some q) : m.deinitializer? q.1 = some function ↔
      i ≤ k ∧ ∀ j e, i ≤ j → j < k → chain[j]? = some e → m.lookup.declared? e.2 = none := by
  rw [h.deinitializer?_eq hq, List.findSome?_eq_some_iff]
  constructor
  · -- What is found first stands on the level of `p`, as no other class declares the same.
    rintro ⟨below, e, above, hdrop, he, hbelow⟩
    have hget : ∀ n, chain[i + n]? = (below ++ e :: above)[n]? :=
      fun n => by rw [← hdrop, List.getElem?_drop]
    have hlevel : i + below.length = k := h.level_eq hp hdeclared (by rw [hget]; simp) he
    refine ⟨by omega, fun j e' hij hjk he' => hbelow e' ?_⟩
    obtain ⟨n, rfl⟩ := Nat.exists_eq_add_of_le hij
    rw [hget, List.getElem?_append_left (by omega)] at he'
    exact List.mem_of_getElem? he'
  · rintro ⟨hik, hnone⟩
    obtain ⟨n, rfl⟩ := Nat.exists_eq_add_of_le hik
    have hget : (chain.drop i)[n]? = some p := by rw [List.getElem?_drop, hp]
    obtain ⟨hn, rfl⟩ := List.getElem?_eq_some_iff.mp hget
    refine ⟨(chain.drop i).take n, _, (chain.drop i).drop (n + 1), ?_, hdeclared, fun e he => ?_⟩
    · rw [← List.drop_eq_getElem_cons hn, List.take_append_drop]
    · obtain ⟨j, hj, rfl⟩ := List.mem_take_iff_getElem.mp he
      exact hnone (i + j) _ (by omega) (by omega)
        (by rw [← List.getElem?_drop, List.getElem?_eq_getElem])

/-- Only its own object runs it exactly if the class below declares one too. -/
theorem runs_once_iff (h : m.Instance chain) {k : Nat} {p : Handle × Handle} {function : Handle}
    (hp : chain[k]? = some p) (hdeclared : m.lookup.declared? p.2 = some function) :
    (∀ i q, chain[i]? = some q → m.deinitializer? q.1 = some function → i = k) ↔
      ∀ j q, j + 1 = k → chain[j]? = some q → m.lookup.declared? q.2 ≠ none := by
  constructor
  · rintro honce j q rfl hq hnone
    have hruns : m.deinitializer? q.1 = some function := by
      refine (h.deinitializer?_iff hp hdeclared hq).mpr ⟨Nat.le_succ j, fun j' e hle hlt he => ?_⟩
      obtain rfl : j' = j := by omega
      obtain rfl : e = q := Option.some.inj (he.symm.trans hq)
      exact hnone
    exact absurd (honce j q hq hruns) (by omega)
  · intro hbelow i q hq hruns
    obtain ⟨hik, hnone⟩ := (h.deinitializer?_iff hp hdeclared hq).mp hruns
    rcases Nat.eq_or_lt_of_le hik with rfl | hlt
    · rfl
    · obtain ⟨hk, _⟩ := List.getElem?_eq_some_iff.mp hp
      obtain ⟨j, rfl⟩ := Nat.exists_eq_succ_of_ne_zero (Nat.ne_of_gt (Nat.zero_lt_of_lt hlt))
      have hget := List.getElem?_eq_getElem (Nat.lt_of_succ_lt hk)
      exact absurd (hnone j _ (Nat.le_of_lt_succ hlt) (Nat.lt_succ_self j) hget)
        (hbelow j _ rfl hget)

end Instance

end Machine

/-! ## Runs -/

section Dead

variable {s : Store} {x : Handle}

/-- A composite that begins to die looks as before, but for its life. -/
theorem Store.bind_get?_dead {α : Type} (y : Handle) (view : Composite → Option α)
    (hview : ∀ c : Composite, view { c with life := .destroyed } = view c) :
    ((s.dead y).get? x).bind view = (s.get? x).bind view := by
  rw [Store.dead, get?_modify]
  split
  · rename_i heq
    rw [heq]
    cases s.get? y with
    | none => rfl
    | some c => exact hview c
  · rfl

theorem Store.Climbs.dead {slot : Slot} {handles : List Handle}
    (hclimbs : s.Climbs slot handles) (y : Handle) : (s.dead y).Climbs slot handles := by
  induction handles with
  | nil => trivial
  | cons h rest ih =>
    obtain ⟨hthere, hlink, honce, hrest⟩ := hclimbs
    refine ⟨?_, ?_, honce, ih hrest⟩
    · rw [contains_modify, hthere]
    · rw [← hlink]
      exact bind_get?_dead y _ fun _ => rfl

variable {m : Machine}

/-- What stands in a composite is found as before. -/
theorem Machine.declared?_dead (y : Handle) :
    ({ m with store := m.store.dead y } : Machine).lookup.declared? x = m.lookup.declared? x := by
  -- Without arguments, whether a function fits is read off its type alone.
  have hfunction : ∀ (L : Lookup) (value : Option Value),
      L.valueFunction? value [] = some ((L.candidate value 0).map (·.1)) := by
    intro L value
    rw [Lookup.valueFunction?, List.length_nil]
    cases L.candidate value 0 <;> rfl
  have hcandidate : ∀ value,
    (({ m with store := m.store.dead y } : Machine).lookup.candidate value 0).map (·.1) =
      (m.lookup.candidate value 0).map (·.1) := by
    intro value
    simp only [Lookup.candidate, Option.bind_eq_bind]
    cases value.bind Value.handle? with
    | none => rfl
    | some f =>
      simp only [Option.bind_some, Option.map_bind]
      refine bind_get?_dead y _ fun c => ?_
      have hkind : ({ c with life := .destroyed } : Composite).is .function = c.is .function := rfl
      simp only [Function.comp_apply, hkind]
      split <;> rfl
  have hsame : ∀ value,
    ({ m with store := m.store.dead y } : Machine).lookup.valueFunction? value [] =
      m.lookup.valueFunction? value [] := by
    intro value
    rw [hfunction, hfunction, hcandidate]
  have hfind : ∀ value,
    ({ m with store := m.store.dead y } : Machine).lookup.findValueFunction? value [] =
      m.lookup.findValueFunction? value [] := by
    intro value
    simp only [Lookup.findValueFunction?, hsame]
  have hmembers : ((m.store.dead y).get? x).bind (·.members.get? "deinit") =
      (m.store.get? x).bind (·.members.get? "deinit") := bind_get?_dead y _ fun _ => rfl
  show (Lookup.select _ (((m.store.dead y).get? x).bind (·.members.get? "deinit") |>.getD [])
    (.call [])).bind _ = _
  rw [hmembers]
  simp only [Lookup.declared?, Lookup.select, Lookup.select?, hfind]
  rfl

theorem Machine.Instance.dead {chain : List (Handle × Handle)} (h : m.Instance chain) (y : Handle) :
    ({ m with store := m.store.dead y } : Machine).Instance chain := by
  have hkind : ∀ kind x, (m.store.dead y).isKind kind x = m.store.isKind kind x := by
    intro kind x
    rw [Store.isKind, Store.kind?, bind_get?_dead y _ fun _ => rfl]
    rfl
  refine ⟨h.supers.dead y, h.lineage.dead y, fun p hp => ?_, fun p hp => ?_, fun p hp q hq => ?_⟩
  · obtain ⟨hobject, hclass, hown⟩ := h.objects p hp
    refine ⟨(hkind _ _).trans hobject, ?_, (declared?_dead y).trans hown⟩
    rw [← hclass]
    exact bind_get?_dead y _ fun _ => rfl
  · exact (hkind _ _).trans (h.classes p hp)
  · rw [declared?_dead, declared?_dead]
    exact h.apart p hp q hq

end Dead

/-- A deinitializer is called on an object, in a frame of its own and however it ends. -/
def callOn (r : Rules) (function object : Handle) : Run Unit := do
  pushFrame
  let _ ← (r.call { function, levels := some object }).outcome
  collectTransfer r (← popFrame)

theorem runDeinitializer_of_some {r : Rules} {m : Machine} {object function : Handle}
    (h : m.deinitializer? object = some function) :
    (runDeinitializer r object) m = callOn r function object m := by
  have hget : ∀ f : Machine → Run Unit, (get >>= f) m = f m m := fun _ => rfl
  rw [Machine.deinitializer?] at h
  unfold runDeinitializer
  rw [hget, h]
  rfl

/-- An object that lives runs its deinitializer before all else; for one whose life has ended
    nothing is done. -/
theorem destroyNow_object {r : Rules} {m : Machine} {h function : Handle}
    (hobject : m.store.isKind .object h = true)
    (hfunction : ({ m with store := m.store.dead h } : Machine).deinitializer? h = some function) :
    destroyNow r h m =
      if m.store.isAlive h = true then
        (do callOn r function h; depart r h : Run Unit) { m with store := m.store.dead h }
      else .ok ((), m) := by
  obtain ⟨c, hc, hkind⟩ := Option.bind_eq_some_iff.mp (eq_of_beq hobject)
  have hobject : c.is .object = true := by rw [Composite.is, hkind]; rfl
  split
  · rename_i hlives
    have hlives : c.isAlive = true := by rwa [Store.isAlive, hc] at hlives
    rw [destroyNow_of_alive hc hlives, if_pos hobject]
    show (runDeinitializer r h { m with store := m.store.dead h } >>= fun e => depart r h e.2) = _
    rw [runDeinitializer_of_some hfunction]
    rfl
  · rename_i hdying
    exact destroyNow_of_not_alive hdying

/-- For every instance, whichever of its classes declare a deinitializer: the one that a class
    declares is run by the object of that class, and by each object below it as long as no class in
    between declares one.  It is run by no other object exactly if the class below declares one too.
    To run it is to call it on the object when the object is destroyed, before all else, and once:
    nothing is done for an object whose life has ended. -/
theorem instance_runs_deinitializers (r : Rules) {m : Machine} {chain : List (Handle × Handle)}
    (h : m.Instance chain) {k : Nat} {p : Handle × Handle} (hp : chain[k]? = some p)
    {function : Handle} (hdeclared : m.lookup.declared? p.2 = some function) :
    (∀ i q, chain[i]? = some q → (m.deinitializer? q.1 = some function ↔
      i ≤ k ∧ ∀ j e, i ≤ j → j < k → chain[j]? = some e → m.lookup.declared? e.2 = none)) ∧
    ((∀ i q, chain[i]? = some q → m.deinitializer? q.1 = some function → i = k) ↔
      ∀ j q, j + 1 = k → chain[j]? = some q → m.lookup.declared? q.2 ≠ none) ∧
    ∀ (i : Nat) (q : Handle × Handle), chain[i]? = some q → m.deinitializer? q.1 = some function →
      destroyNow r q.1 m =
        if m.store.isAlive q.1 = true then
          (do callOn r function q.1; depart r q.1 : Run Unit) { m with store := m.store.dead q.1 }
        else .ok ((), m) := by
  refine ⟨fun i q hq => h.deinitializer?_iff hp hdeclared hq, h.runs_once_iff hp hdeclared,
    fun i q hq hruns => ?_⟩
  -- The object has begun to die when its deinitializer is looked for.
  have hdying : ({ m with store := m.store.dead q.1 } : Machine).deinitializer? q.1 =
    some function := by
    rw [(h.dead q.1).deinitializer?_eq hq, ← hruns, h.deinitializer?_eq hq]
    exact congrArg (List.findSome? · _) (funext fun e => Machine.declared?_dead q.1)
  exact destroyNow_object (h.objects q (List.mem_of_getElem? hq)).1 hdying

open Sketch

def Sketch.deinitializer (statements : List Node) : Node :=
  .bare (.deinitializerDeclaration (some (body statements)))

def Sketch.printing (text : String) : Node := calling "print" [.bare (.stringSegment text)]

/-- The lowest and the highest of three classes declare a deinitializer, and there is an object of
    the lowest. -/
def threeLevels : Node := .bare (.module
  [derivedClass "A" [] [initializer [], deinitializer []],
    derivedClass "B" ["A"] [initializer []],
    derivedClass "C" ["B"] [initializer [], deinitializer []],
    variableNamed "c" (calling "C" [])])

/-- The deinitializer of `A` is run by the objects of `B` and `A`, and so twice, but not by that of
    `C`. -/
theorem instance_runs_deinitializers_three :
    ∃ m, runModule (rules 40) threeLevels (.fresh {}) = .ok ((), m) ∧
      m.Instance [(⟨12, 0⟩, ⟨9, 0⟩), (⟨13, 0⟩, ⟨7, 0⟩), (⟨14, 0⟩, ⟨4, 0⟩)] ∧
      m.lookup.declared? ⟨9, 0⟩ = some ⟨11, 0⟩ ∧ m.lookup.declared? ⟨7, 0⟩ = none ∧
      m.lookup.declared? ⟨4, 0⟩ = some ⟨6, 0⟩ ∧
      m.deinitializer? ⟨12, 0⟩ ≠ some ⟨6, 0⟩ ∧ m.deinitializer? ⟨13, 0⟩ = some ⟨6, 0⟩ ∧
      m.deinitializer? ⟨14, 0⟩ = some ⟨6, 0⟩ := by
  have hcheck : (runModule (rules 40) threeLevels (.fresh {})).toOption.map (fun p =>
      decide (p.2.Instance [(⟨12, 0⟩, ⟨9, 0⟩), (⟨13, 0⟩, ⟨7, 0⟩), (⟨14, 0⟩, ⟨4, 0⟩)] ∧
        p.2.lookup.declared? ⟨9, 0⟩ = some ⟨11, 0⟩ ∧ p.2.lookup.declared? ⟨7, 0⟩ = none ∧
        p.2.lookup.declared? ⟨4, 0⟩ = some ⟨6, 0⟩)) = some true := by decide +kernel
  obtain ⟨⟨⟩, m, hrun, hall⟩ := Run.exists_ok_of_map hcheck
  obtain ⟨hinstance, hlow, hmiddle, hhigh⟩ := of_decide_eq_true hall
  obtain ⟨hruns, _⟩ := instance_runs_deinitializers (rules 40) hinstance (k := 2) rfl hhigh
  refine ⟨m, hrun, hinstance, hlow, hmiddle, hhigh, fun h => ?_, (hruns 1 _ rfl).mpr ?_,
    (hruns 2 _ rfl).mpr ?_⟩
  · have hnone := ((hruns 0 _ rfl).mp h).2 0 _ (Nat.le_refl 0) (by decide) rfl
    exact Option.some_ne_none _ (hlow.symm.trans hnone)
  · refine ⟨by decide, fun j e hle hlt he => ?_⟩
    obtain rfl : j = 1 := by omega
    obtain rfl := Option.some.inj he
    exact hmiddle
  · exact ⟨Nat.le_refl 2, fun j e hle hlt _ => by omega⟩

/-- Only the class above declares a deinitializer, and the only object of the
    class below is dropped. -/
def inheritedDeinitializer : Node := .bare (.module
  [derivedClass "A" [] [initializer [], deinitializer [printing "A"]],
    derivedClass "B" ["A"] [initializer []],
    variableNamed "b" (calling "B" []),
    assignment "b" (.bare .nilLiteral),
    printing "end"])

/-- A class and its only object are declared in a function. -/
def localClass : Node := .bare (.module
  [functionNamed "f" []
      [derivedClass "A" [] [initializer [], deinitializer [printing "A"]],
        variableNamed "a" (calling "A" []),
        printing "in"],
    calling "f" [],
    printing "end"])

/-- The deinitializer of a class above is called twice for one instance.  That of a class which is
    destroyed before its instance is never called. -/
theorem deinitializer_called_twice_or_never :
    reported inheritedDeinitializer = some ["A", "A", "end"] ∧
      reported localClass = some ["in", danglingMessage ⟨6, 0⟩, "end"] := by
  decide +kernel

end CompositeGraph
