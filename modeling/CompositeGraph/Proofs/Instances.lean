/-
  INSTANCES: the object that a call of a class makes.

  A call of a class looks for an initializer in the class and in what it inherits, and makes an
  object, with one more above it for each class above.  Its class is not the one that was called but
  the one that the initializer belongs to; the one that was called counts only if the initializer
  belongs to none.

    1. FILLING.    Slots and members are set on a composite that had none there, in any machine.
    2. OBJECTS.    A new object, and its class.
    3. CHAINS.     What is built above an object leaves its class alone.
    4. INSTANCES.  The class that is planned, and the class of the object that is made.
-/
import CompositeGraph.Proofs.Chains
import CompositeGraph.Proofs.Differences
import CompositeGraph.Proofs.NilBases

namespace CompositeGraph

open Run Store

/-! ## Filling -/

namespace Store

variable {s t u : Store} {x : Handle} {slots slots' : List Slot}

/-- Some slots of a composite are set, and perhaps members; nothing else changes but lists of
    retainers. -/
structure Fills (x : Handle) (slots : List Slot) (s t : Store) : Prop where
  others : ∀ h, h ≠ x → t.bare? h = s.bare? h
  alive : t.isAlive x = s.isAlive x
  type : t.type? x = s.type? x
  links : ∀ slot, slot ∉ slots → t.link? slot x = s.link? slot x

namespace Fills

theorem refl (x : Handle) (slots : List Slot) (s : Store) : s.Fills x slots s :=
  ⟨fun _ _ => rfl, rfl, rfl, fun _ _ => rfl⟩

theorem trans (h : s.Fills x slots t) (h' : t.Fills x slots' u) :
    s.Fills x (slots ++ slots') u where
  others k hk := (h'.others k hk).trans (h.others k hk)
  alive := h'.alive.trans h.alive
  type := h'.type.trans h.type
  links slot hslot := by
    obtain ⟨hs, hs'⟩ := not_or.mp fun h => hslot (List.mem_append.mpr h)
    rw [h'.links slot hs', h.links slot hs]

/-- What is listed in other composites, and what has become of the composite itself. -/
theorem of_listedIn {c : Composite} {f : Composite → Composite} {new : List Handle}
    (hx : s.get? x = some c) (halive : (f c).isAlive = c.isAlive) (htype : (f c).type = c.type)
    (hlinks : ∀ slot, slot ∉ slots → (f c).links.get slot = c.links.get slot) :
    s.Fills x slots ((s.modify x f).listedIn x new) := by
  have hbare : ((s.modify x f).listedIn x new).bare? x = some (f c).bare := by
    rw [bare?_listedIn, bare?_of_get? (get?_modify_self f hx)]
  refine ⟨fun h hne => ?_, ?_, ?_, fun slot hslot => ?_⟩
  · rw [bare?_listedIn, bare?_modify_ne f hne]
  · rw [isAlive_of_bare? (bare?_listedIn x), isAlive, get?_modify_self f hx, isAlive, hx]
    exact halive
  · rw [type?_eq_map_bare?, hbare, type?, hx]
    exact congrArg some htype
  · rw [link?_eq_bind_bare?, hbare, link?, hx]
    simpa using hlinks slot hslot

end Fills

end Store

section Filling

variable {r : Rules} {m : Machine} {x : Handle}

/-- An empty slot is set, or that is refused.  Nothing has to be let go. -/
theorem setSlot_fills {slot : Slot} {value : Option Handle} (hx : m.store.isAlive x = true)
    (hempty : m.store.link? slot x = none)
    (hlinked : slot = .currentType → ∀ v, value = some v → ∃ type,
      m.store.type? x = some type ∧ v ∈ type.references) :
    Ends m (setSlot r x slot value) fun _ m' => m.store.Fills x [slot] m'.store ∧
      (isChain slot = false → m'.store.link? slot x = value) := by
  obtain ⟨c, hc, halive⟩ := isAlive_iff.mp hx
  have hold : c.links.get slot = none := by simpa [Store.link?, hc] using hempty
  rw [Ends, setSlot_eq r hc, hold]
  split
  · rename_i hrefused
    refine ⟨(), m, rfl, .refl x _ _, fun hfree => ?_⟩
    rw [hfree] at hrefused
    cases hrefused
  · have hfills : ∀ new, m.store.Fills x [slot]
        ((m.store.modify x fun c => c.setSlot slot value).listedIn x new) := fun new =>
      .of_listedIn hc rfl rfl fun other hother =>
        Links.get_set_ne _ _ fun h => hother (List.mem_singleton.mpr h)
    have hlink : ∀ new,
        ((m.store.modify x fun c => c.setSlot slot value).listedIn x new).link? slot x = value := by
      intro new
      rw [link?_of_bare? (bare?_listedIn x), Store.link?, get?_modify_self _ hc]
      exact Links.get_set_self _ _ _
    cases value with
    | none => exact ⟨(), _, rfl, hfills [], fun _ => hlink []⟩
    | some v =>
      have hmem : v ∈ (m.store.modify x fun c => c.setSlot slot (some v)).references x := by
        rw [references_of_get? (get?_modify_self _ hc)]
        by_cases hslot : slot = .currentType
        · obtain ⟨type, htype, hv⟩ := hlinked hslot v rfl
          rw [Store.type?, hc] at htype
          cases htype
          exact Composite.mem_references.mpr ⟨.type, hv⟩
        · exact Composite.mem_references_of_slot hslot (Links.get_set_self _ _ _)
      refine ⟨(),
        { m with store := (m.store.modify x fun c => c.setSlot slot (some v)).listedIn x [v] }, ?_,
        hfills [v], fun _ => hlink [v]⟩
      exact retainOrRelease_listing
        (m := { m with store := m.store.modify x fun c => c.setSlot slot (some v) })
        (by rw [Store.isAlive, get?_modify_self _ hc]; exact halive) hmem

/-- A member gets one more overload. -/
theorem bindName_fills (hx : m.store.isAlive x = true) (name : String) (type : TypeTree)
    (value : Option Value) :
    Ends m (bindName r x name type value) fun _ m' => m.store.Fills x [] m'.store := by
  obtain ⟨c, hc, halive⟩ := isAlive_iff.mp hx
  have hplace : placeOverload { type, value } none ((c.members.get? name).getD []) =
      (none, (c.members.get? name).getD [] ++ [({ type, value } : Overload)]) := rfl
  let f := fun c' : Composite =>
    { c' with
      members := c'.members.put name
        ((c.members.get? name).getD [] ++ [({ type, value } : Overload)]) }
  have hreplaces : c.Replaces f _ _ := Composite.replaces_member c hplace
  have hrun : reconcile r x [] ({ type, value } : Overload).references
      { m with store := m.store.modify x f } =
        .ok ((), { m with
          store := (m.store.modify x f).listedIn x
            (missingFrom [] ({ type, value } : Overload).references) }) := by
    rw [reconcile, missingFrom_nil, List.append_nil]
    refine forM_retainOrRelease_listedIn ?_ fun y hy => ?_
    · rw [Store.isAlive, get?_modify_self _ hc]
      exact halive
    · rw [references_of_get? (get?_modify_self _ hc)]
      exact hreplaces.new_mem y (Composite.mem_missingFrom.mp hy).1
  refine Ends.bind (Q := fun _ m' => m.store.Fills x [] m'.store) (Ends.store_bind ?_) fun _ _ h =>
    Ends.pure h
  dsimp only [Placement.target]
  rw [hc]
  dsimp only
  rw [hplace]
  refine Ends.modifyStore_bind
    (Ends.bind (Q := fun _ m' => m.store.Fills x [] m'.store) ?_ fun _ _ h => Ends.pure h)
  exact ⟨(), _, hrun, .of_listedIn hc rfl rfl fun _ _ => rfl⟩

theorem bindGenerics_fills (hx : m.store.isAlive x = true) (classHandle : Handle)
    (generics : List TypeTree) :
    Ends m (bindGenerics r x classHandle generics) fun _ m' => m.store.Fills x [] m'.store := by
  refine Ends.store_bind ?_
  dsimp only
  generalize (((m.store.get? classHandle).map fun c => c.type.genericParameters).getD []).zip
    generics = pairs
  induction pairs generalizing m with
  | nil => exact Ends.pure (.refl x _ _)
  | cons pair pairs ih =>
    refine Ends.bind (Q := fun _ m' => m.store.Fills x [] m'.store) ?_ fun _ m₁ h₁ =>
      (ih (h₁.alive.trans hx)).mono fun _ m₂ h₂ => h₁.trans h₂
    dsimp only
    split
    · exact bindName_fills hx _ _ _
    · exact Ends.pure (.refl x _ _)

/-- Two empty slots are set one after the other. -/
theorem setSlots_fills {slot slot' : Slot} {value value' : Option Handle}
    (hx : m.store.isAlive x = true)
    (hne : slot ≠ slot') (hslot : slot ≠ .currentType) (hempty : m.store.link? slot x = none)
    (hempty' : m.store.link? slot' x = none)
    (hlinked : slot' = .currentType → ∀ v, value' = some v → ∃ type,
      m.store.type? x = some type ∧ v ∈ type.references) :
    Ends m (do setSlot r x slot value; setSlot r x slot' value') fun _ m' =>
      m.store.Fills x [slot, slot'] m'.store ∧
      (isChain slot' = false → m'.store.link? slot' x = value') := by
  refine (setSlot_fills hx hempty fun h => absurd h hslot).bind ?_
  rintro _ m₁ ⟨h₁, _⟩
  have hnot : slot' ∉ [slot] := fun h => hne (List.mem_singleton.mp h).symm
  refine (setSlot_fills (h₁.alive.trans hx) ((h₁.links slot' hnot).trans hempty') ?_).mono ?_
  · rw [h₁.type]
    exact hlinked
  · rintro _ m₂ ⟨h₂, hlink⟩
    exact ⟨h₁.trans h₂, hlink⟩

end Filling

/-! ## Objects -/

theorem inherited?_objectType (classHandle : Handle) :
    (objectType classHandle).inherited? = some classHandle := rfl

theorem mem_references_objectType (classHandle : Handle) :
    classHandle ∈ (objectType classHandle).references :=
  TypeTree.mem_references_of_inherited? (inherited?_objectType classHandle)

namespace Store

variable {s t u : Store} {x classHandle : Handle} {type : TypeTree} {filled slots : List Slot}

theorem selfType?_of_type? (h : s.type? x = some (objectType classHandle)) :
    s.selfType? x = some classHandle := by
  obtain ⟨c, hc, htype⟩ := Option.map_eq_some_iff.mp h
  have hkind : c.is .object = true := by
    rw [Composite.is, Composite.kind?, htype]
    rfl
  rw [selfType?, hc, Option.bind_some, if_pos hkind, htype, inherited?_objectType]

/-- A composite is new: nothing that was there has changed but lists of retainers, and of the slots
    of the new one only some are filled. -/
structure Made (s : Store) (type : TypeTree) (filled : List Slot) (x : Handle)
    (t : Store) : Prop where
  next : x = s.next
  others : ∀ h, h ≠ x → t.bare? h = s.bare? h
  alive : t.isAlive x = true
  type : t.type? x = some type
  empty : ∀ slot, slot ∉ filled → t.link? slot x = none

namespace Made

theorem ne_of_contains (h : s.Made type filled x t) {k : Handle}
    (hk : s.contains k = true) : k ≠ x := by
  rintro rfl
  rw [h.next, contains, get?_next] at hk
  cases hk

theorem old (h : s.Made type filled x t) (k : Handle) (hk : s.contains k = true) :
    t.bare? k = s.bare? k :=
  h.others k (h.ne_of_contains hk)

theorem fills (h : s.Made type filled x t) (h' : t.Fills x slots u) :
    s.Made type (filled ++ slots) x u where
  next := h.next
  others k hk := (h'.others k hk).trans (h.others k hk)
  alive := h'.alive.trans h.alive
  type := h'.type.trans h.type
  empty slot hslot := by
    obtain ⟨hs, hs'⟩ := not_or.mp fun h => hslot (List.mem_append.mpr h)
    rw [h'.links slot hs', h.empty slot hs]

end Made

end Store

section Objects

variable {r : Rules} {m : Machine} {classHandle : Handle}

theorem createComposite_makes (title : Option String) (type : TypeTree) (scope : Handle) :
    Ends m (createComposite r title type (some scope)) fun x m' =>
      m.store.Made type [.scope] x m'.store := by
  have hget := get?_add_self (s := m.store) (Composite.fresh title type)
  have hadded : m.store.Made type [] m.store.next (m.store.add (Composite.fresh title type)).1 := by
    refine ⟨rfl, fun h hne => ?_, ?_, ?_, fun slot _ => ?_⟩
    · rw [Store.bare?, get?_add_ne _ hne, Store.bare?]
    · exact isAlive_iff.mpr ⟨_, hget, Composite.isAlive_fresh title type⟩
    · rw [Store.type?, hget]
      rfl
    · rw [Store.link?, hget]
      cases slot <;> rfl
  show Ends { m with store := (m.store.add (Composite.fresh title type)).1 } (do
    setSlot r m.store.next .scope (some scope)
    type.references.forM (retainOrRelease r m.store.next)
    return m.store.next) _
  refine (setSlot_fills hadded.alive (hadded.empty _ (by simp)) fun h =>
    absurd h (by decide)).bind ?_
  rintro _ m₁ ⟨h₁, _⟩
  have hmade := hadded.fills h₁
  have hlinks : ∀ y ∈ type.references, y ∈ m₁.store.references m.store.next := by
    intro y hy
    obtain ⟨c, hc, htype⟩ := Option.map_eq_some_iff.mp hmade.type
    rw [references_of_get? hc]
    exact Composite.mem_references.mpr ⟨.type, by rw [Composite.linked, htype]; exact hy⟩
  refine Ends.bind (Q := fun _ m' =>
    m' = { m₁ with store := m₁.store.listedIn m.store.next type.references })
    ⟨(), _, forM_retainOrRelease_listedIn hmade.alive hlinks, rfl⟩ ?_
  rintro _ _ rfl
  have hbare : ∀ h, (m₁.store.listedIn m.store.next type.references).bare? h = m₁.store.bare? h :=
    bare?_listedIn
  refine Ends.pure ⟨rfl, fun h hh => (hbare h).trans (hmade.others h hh),
    (isAlive_of_bare? (hbare _)).trans hmade.alive,
    (type?_of_bare? (hbare _)).trans hmade.type, fun slot hslot => ?_⟩
  exact (link?_of_bare? (hbare _) slot).trans (hmade.empty slot (by simpa using hslot))

/-- A new object is of the class it is made for. -/
theorem createObject_makes (below : Option Handle) :
    Ends m (createObject r none classHandle below) fun x m' =>
      m.store.Made (objectType classHandle) lowest x m'.store ∧
        m'.store.link? .currentType x = some classHandle := by
  refine Ends.get_bind ((createComposite_makes _ _ _).bind ?_)
  rintro x m₁ h₁
  -- It is its own level, and its type is what it inherits.
  have hself : Ends m₁ (setSelfLevels r x x) fun _ m' =>
    m₁.store.Fills x [.current, .currentType] m'.store ∧
      m'.store.link? .currentType x = some classHandle := by
    refine Ends.store_bind ?_
    rw [selfType?_of_type? h₁.type]
    refine (setSlots_fills h₁.alive ?_ ?_ ?_ ?_ ?_).mono fun _ _ h => ⟨h.1, h.2 rfl⟩
    · decide
    · decide
    · exact h₁.empty _ (by decide)
    · exact h₁.empty _ (by decide)
    · rintro _ v ⟨⟩
      exact ⟨_, h₁.type, mem_references_objectType classHandle⟩
  refine Ends.bind hself ?_
  rintro _ m₂ ⟨h₂, hclass⟩
  have hmade := h₁.fills h₂
  have hsub : Ends m₂ (setSubLevels r x below) fun _ m' =>
    m₂.store.Fills x [.sub, .subType] m'.store := by
    refine Ends.store_bind ?_
    cases below with
    | none => exact Ends.pure (.refl x _ _)
    | some below =>
      dsimp only
      split
      · refine (setSlots_fills hmade.alive ?_ ?_ ?_ ?_ ?_).mono fun _ _ h => h.1
        · decide
        · decide
        · exact hmade.empty _ (by decide)
        · exact hmade.empty _ (by decide)
        · exact fun h => absurd h (by decide)
      · exact Ends.pure (.refl x _ _)
  refine Ends.bind hsub ?_
  rintro _ m₃ h₃
  refine Ends.pure ⟨hmade.fills h₃, ?_⟩
  rw [h₃.links _ (by decide), hclass]

end Objects

/-! ## Chains -/

/-- An object without levels above it gets both at once. -/
theorem setSuperLevels_fills {r : Rules} {m : Machine} {d : Handle} (above : Option Handle)
    (halive : m.store.isAlive d = true) (hsuper : m.store.link? .super d = none)
    (hsuperType : m.store.link? .superType d = none) :
    Ends m (setSuperLevels r d above) fun _ m' =>
      m.store.Fills d [.super, .superType] m'.store := by
  refine Ends.store_bind ((setSlots_fills halive ?_ ?_ hsuper hsuperType ?_).mono fun _ _ h => h.1)
  · decide
  · decide
  · exact fun h => absurd h (by decide)

/-- What is built above an object changes nothing that was there but what is above it, and leaves
    the class of the object alone. -/
theorem buildChain_keeps {r : Rules} {m : Machine} (generics : List TypeTree) (steps : Nat)
    (visited : List Handle)
    {derived : Handle} {level : Option Handle} (hderived : m.store.isAlive derived = true)
    (hsuper : m.store.link? .super derived = none)
    (hsuperType : m.store.link? .superType derived = none) :
    Ends m (buildChain r generics steps visited (some derived) level) fun _ m' =>
      (∀ h, m.store.contains h = true → h ≠ derived → m'.store.bare? h = m.store.bare? h) ∧
        m'.store.link? .currentType derived = m.store.link? .currentType derived := by
  -- By induction on the steps: each new object changes the one right below it, which is new as well
  -- but for the first.
  induction steps generalizing m visited derived level with
  | zero => exact Ends.pure ⟨fun _ _ _ => rfl, rfl⟩
  | succ steps ih =>
    cases level with
    | none => exact Ends.pure ⟨fun _ _ _ => rfl, rfl⟩
    | some level =>
      have hthere := contains_of_isAlive hderived
      refine Ends.store_bind ?_
      dsimp only
      split
      · exact Ends.pure ⟨fun _ _ _ => rfl, rfl⟩
      refine (createObject_makes (some derived)).bind ?_
      rintro x m₁ ⟨hmade, _⟩
      have hne := hmade.ne_of_contains hthere
      have hbare := hmade.old derived hthere
      -- The object below gets the new one above it.
      have hlevels :=
        setSuperLevels_fills (r := r) (some x) ((isAlive_of_bare? hbare).trans hderived)
        ((link?_of_bare? hbare _).trans hsuper) ((link?_of_bare? hbare _).trans hsuperType)
      refine Ends.bind hlevels ?_
      rintro _ m₂ h₂
      have hx := h₂.others x hne.symm
      refine Ends.store_bind ((ih (m := m₂) (level :: visited) ?_ ?_ ?_).bind ?_)
      · exact (isAlive_of_bare? hx).trans hmade.alive
      · exact (link?_of_bare? hx _).trans (hmade.empty _ (by decide))
      · exact (link?_of_bare? hx _).trans (hmade.empty _ (by decide))
      rintro _ m₃ ⟨h₃, _⟩
      have hthere₂ : ∀ h, m.store.contains h = true → m₂.store.contains h = true := by
        intro h hh
        by_cases hhd : h = derived
        · rw [hhd]
          exact contains_of_isAlive (h₂.alive.trans ((isAlive_of_bare? hbare).trans hderived))
        · rw [contains_of_bare? (h₂.others h hhd), contains_of_bare? (hmade.old h hh)]
          exact hh
      refine Ends.pure ⟨fun h hh hhd => ?_, ?_⟩
      · rw [h₃ h (hthere₂ h hh) (hmade.ne_of_contains hh), h₂.others h hhd, hmade.old h hh]
      · rw [link?_of_bare? (h₃ derived (hthere₂ derived hthere) hne), h₂.links _ (by decide),
          link?_of_bare? hbare]

/-- The first object of a chain is new, and of the class that the chain was built for. -/
theorem buildChain_starts {r : Rules} {m : Machine} {classHandle : Handle}
    (generics : List TypeTree) (steps : Nat)
    (hclass : ((m.store.kind? classHandle).map Kind.instantiable).getD false = true) :
    Ends m (buildChain r generics (steps + 1) [] none (some classHandle)) fun object m' =>
      object = some m.store.next ∧ m'.store.link? .currentType m.store.next = some classHandle := by
  refine Ends.store_bind ?_
  dsimp only
  rw [if_neg (by simp [hclass])]
  refine (createObject_makes none).bind ?_
  rintro x m₁ ⟨hmade, hlink⟩
  refine (bindGenerics_fills hmade.alive classHandle generics).bind ?_
  rintro _ m₂ h₂
  have hmade := hmade.fills h₂
  refine Ends.store_bind ((buildChain_keeps generics steps _ hmade.alive ?_ ?_).bind ?_)
  · exact hmade.empty _ (by decide)
  · exact hmade.empty _ (by decide)
  rintro _ m₃ ⟨_, h₃⟩
  refine Ends.pure ⟨congrArg some hmade.next, ?_⟩
  rw [← hmade.next, h₃, h₂.links _ (by decide), hlink]

/-! ## Instances -/

namespace Machine

variable (m : Machine)

/-- The function that a callee is called by itself, planned. -/
def directPlan (callee : Callee) (arguments : List Argument) : Plan :=
  match callee with
  | .member composite identifier internal =>
    let function := composite.bind fun composite =>
      (m.lookup.find? composite identifier (.call arguments) internal).bind (·.matching)
    m.planFor function composite (identifier == "init")
  | .value value => m.planFor (m.lookup.findValueFunction value arguments) none false

/-- The class that a callee names; an object stands for its type. -/
def named? (callee : Callee) : Option Handle :=
  let named :=
    match callee with
    | .member composite identifier internal => composite.bind fun composite =>
      (m.lookup.find? composite identifier .composite internal).bind (·.matching)
    | .value value => value.bind Value.handle?
  named.map m.initialized

/-- The initializer that a class has for some arguments, its own or one that it inherits. -/
def initializer? (classHandle : Handle) (arguments : List Argument) : Option Handle :=
  (m.lookup.find? classHandle "init" (.call arguments) true).bind (·.matching)

/-- Where nothing is called by itself, a call is a call of the class that the callee names. -/
theorem plan_of_named {m : Machine} {callee : Callee} {arguments : List Argument}
    {classHandle : Handle} (hdirect : (m.directPlan callee arguments).function = none ∧
      (m.directPlan callee arguments).initializer = false)
    (hnamed : m.named? callee = some classHandle) :
    m.plan callee arguments = m.planFor (m.initializer? classHandle arguments)
      (some classHandle) true := by
  have hplan : m.plan callee arguments =
      if (m.directPlan callee arguments).function.isSome ||
      (m.directPlan callee arguments).initializer then
        m.directPlan callee arguments
      else m.planFor ((m.named? callee).bind (m.initializer? · arguments))
      (m.named? callee) true := by
    cases callee <;> rfl
  rw [hplan, hdirect.1, hdirect.2, hnamed]
  rfl

theorem planFor_self {m : Machine} {f k : Handle} (named : Bool) :
    (m.planFor (some f) (some k) named).selfComposite =
      some ((m.store.link? .currentType f).getD k) := by
  show ((m.store.get? f).bind (·.links.currentType)).or (some k) = _
  rw [Store.link?]
  cases m.store.get? f with
  | none => rfl
  | some c =>
    cases hself : c.links.currentType with
    | none => simp [Links.get, hself]
    | some other => simp [Links.get, hself]

end Machine

/-- Outside of an object that is being made, the initializer of a class works on a new object of
    that class. -/
theorem initializerObject_starts {r : Rules} {m : Machine} {scope classHandle : Handle}
    (generics : List TypeTree) (hfree : m.delegated? scope classHandle = none)
    (hclass : ((m.store.kind? classHandle).map Kind.instantiable).getD false = true) :
    Ends m (initializerObject r scope classHandle generics) fun object m' =>
      object = some m.store.next ∧ m'.store.link? .currentType m.store.next = some classHandle := by
  have hsize : ∃ steps, m.store.size = steps + 1 := by
    cases hkind : m.store.kind? classHandle with
    | none =>
      rw [hkind] at hclass
      cases hclass
    | some kind =>
      obtain ⟨c, hc, _⟩ := Option.bind_eq_some_iff.mp hkind
      exact Nat.exists_eq_add_of_lt (Nat.zero_lt_of_lt (index_lt_size hc)) |>.imp
        fun n hn => by omega
  obtain ⟨steps, hsteps⟩ := hsize
  refine Ends.get_bind ?_
  dsimp only
  rw [hfree, ite_self]
  refine Ends.store_bind ?_
  rw [hsteps]
  exact buildChain_starts generics steps hclass

/-- A call of a class, outside of an object that is being made, calls the initializer that was found
    on a new object.  The class of the object is the one that the initializer belongs to, and the
    one that was called if it belongs to none. -/
theorem instantiation_starts_with (r : Rules) (node : Node) {m : Machine} {callee : Callee}
    {arguments : List Argument} {scope classHandle function : Handle} (generics : List TypeTree)
    (hdirect : (m.directPlan callee arguments).function = none ∧
      (m.directPlan callee arguments).initializer = false)
    (hnamed : m.named? callee = some classHandle)
    (hfound : m.initializer? classHandle arguments = some function)
    (hplan : (m.plan callee arguments).initializer = true)
    (hfree : m.delegated? scope ((m.store.link? .currentType function).getD classHandle) = none) :
    ∃ m', (invoke r node scope (m.plan callee arguments) arguments generics).outcome m =
        (r.call { node := some node, function, arguments, levels := some m.store.next,
                  caller := m.callerOf scope }).outcome m' ∧
      m'.store.link? .currentType m.store.next =
      some ((m.store.link? .currentType function).getD classHandle) ∧
      (m'.store.link? .currentType m.store.next = some classHandle ↔
        ∀ other, m.store.link? .currentType function = some other → other = classHandle) := by
  rw [Machine.plan_of_named hdirect hnamed, hfound] at hplan ⊢
  have hself := Machine.planFor_self (m := m) (f := function) (k := classHandle) true
  have hclass : ((m.store.kind? ((m.store.link? .currentType function).getD classHandle)).map
      Kind.instantiable).getD false = true := by
    have hinstantiable :
      (((m.planFor (some function) (some classHandle) true).selfComposite.bind m.store.kind?).map
      Kind.instantiable).getD false = true := hplan
    rwa [hself] at hinstantiable
  obtain ⟨_, m', hrun, rfl, hlink⟩ := initializerObject_starts (r := r) generics hfree hclass
  refine ⟨m', ?_, hlink, ?_⟩
  · have hlevels : invoke r node scope (m.planFor (some function) (some classHandle) true)
      arguments generics =
        (liftM (get : Run Machine) : Flow Machine) >>= fun machine =>
          (liftM (initializerObject r scope
            ((m.store.link? .currentType function).getD classHandle) generics) :
            Flow (Option Handle)) >>= fun levels =>
              r.call ⟨some node, function, arguments, levels, machine.callerOf scope⟩ := by
      unfold invoke
      rw [hself, hplan]
      rfl
    rw [hlevels]
    exact (outcome_bind_ok (outcome_lift rfl)).trans (outcome_bind_ok (outcome_lift hrun))
  · rw [hlink, Option.some.injEq]
    cases m.store.link? .currentType function with
    | none => simp
    | some other => simp

open Sketch

/-- A class with what it inherits and what it declares. -/
def Sketch.derivedClass (name : String) (inherited : List String) (statements : List Node) : Node :=
  .bare (.compositeDeclaration .class ⟨[], some (named name), [],
    inherited.map fun name => .bare (.typeIdentifier (some (named name)) []),
    some (body statements)⟩)

def Sketch.initializer (statements : List Node) : Node :=
  .bare (.initializerDeclaration [] false (some (signature [])) (some (body statements)))

/-- Both classes have an initializer. -/
def ownInitializers : Node := .bare (.module
  [derivedClass "A" [] [initializer []], derivedClass "B" ["A"] [initializer []]])

/-- A call of `B` makes an object of `B`, since the initializer that it finds belongs to it. -/
theorem instantiation_starts_with_own :
    ∃ m, runModule (rules 40) ownInitializers (.fresh {}) = .ok ((), m) ∧
      (m.directPlan (.member (some ⟨0, 0⟩) "B" false) []).function = none ∧
      (m.directPlan (.member (some ⟨0, 0⟩) "B" false) []).initializer = false ∧
      m.named? (.member (some ⟨0, 0⟩) "B" false) = some ⟨6, 0⟩ ∧
        m.initializer? ⟨6, 0⟩ [] = some ⟨7, 0⟩ ∧
      (m.plan (.member (some ⟨0, 0⟩) "B" false) []).initializer = true ∧
      m.delegated? ⟨0, 0⟩ ((m.store.link? .currentType ⟨7, 0⟩).getD ⟨6, 0⟩) = none ∧
      ∃ m', (invoke (rules 40) (named "B") ⟨0, 0⟩ (m.plan (.member (some ⟨0, 0⟩) "B" false) [])
        [] []).outcome m =
          ((rules 40).call { node := some (named "B"), function := ⟨7, 0⟩, arguments := [],
                             levels := some m.store.next, caller :=
                             m.callerOf ⟨0, 0⟩ }).outcome m' ∧
        m'.store.link? .currentType m.store.next = some ⟨6, 0⟩ := by
  have hcheck : (runModule (rules 40) ownInitializers (.fresh {})).toOption.map (fun p =>
      decide ((p.2.directPlan (.member (some ⟨0, 0⟩) "B" false) []).function = none ∧
        (p.2.directPlan (.member (some ⟨0, 0⟩) "B" false) []).initializer = false ∧
        p.2.named? (.member (some ⟨0, 0⟩) "B" false) = some ⟨6, 0⟩ ∧
        p.2.initializer? ⟨6, 0⟩ [] = some ⟨7, 0⟩ ∧
        (p.2.plan (.member (some ⟨0, 0⟩) "B" false) []).initializer = true ∧
        p.2.delegated? ⟨0, 0⟩ ((p.2.store.link? .currentType ⟨7, 0⟩).getD ⟨6, 0⟩) = none ∧
        p.2.store.link? .currentType ⟨7, 0⟩ = some ⟨6, 0⟩)) = some true := by decide +kernel
  obtain ⟨⟨⟩, m, hrun, hall⟩ := Run.exists_ok_of_map hcheck
  obtain ⟨hfunction, hdirect, hnamed, hfound, hplan, hfree, hself⟩ := of_decide_eq_true hall
  obtain ⟨m', hcall, _, hclass⟩ :=
    instantiation_starts_with (rules 40) (named "B") [] ⟨hfunction, hdirect⟩ hnamed
      hfound hplan hfree
  refine ⟨m, hrun, hfunction, hdirect, hnamed, hfound, hplan, hfree, m', hcall,
    hclass.mpr fun other hother => ?_⟩
  exact Option.some.inj (hother.symm.trans hself)

/-- Only the class above has an initializer. -/
def inheritedInitializer : Node := .bare (.module
  [derivedClass "A" [] [initializer []], derivedClass "B" ["A"] [],
    variableNamed "b" (calling "B" [])])

/-- A call of a class may make an object of another one: the initializer of `B` is that of `A`, and
    what it makes is an object of `A`. -/
theorem instance_of_class_above :
    ∃ m, runModule (rules 40) inheritedInitializer (.fresh {}) = .ok ((), m) ∧
      ∃ a b object, a ≠ b ∧ m.store.heldUnder ⟨0, 0⟩ "A" = some [a] ∧
        m.store.heldUnder ⟨0, 0⟩ "B" = some [b] ∧
        m.store.heldUnder ⟨0, 0⟩ "b" = some [object] ∧
          m.store.link? .currentType object = some a := by
  have hcheck : (runModule (rules 40) inheritedInitializer (.fresh {})).toOption.map (fun p =>
      decide (p.2.store.heldUnder ⟨0, 0⟩ "A" = some [⟨4, 0⟩] ∧
        p.2.store.heldUnder ⟨0, 0⟩ "B" = some [⟨6, 0⟩] ∧
        p.2.store.heldUnder ⟨0, 0⟩ "b" = some [⟨7, 0⟩] ∧
        p.2.store.link? .currentType ⟨7, 0⟩ = some ⟨4, 0⟩)) = some true := by decide +kernel
  obtain ⟨⟨⟩, m, hrun, hall⟩ := Run.exists_ok_of_map hcheck
  exact ⟨m, hrun, ⟨4, 0⟩, ⟨6, 0⟩, ⟨7, 0⟩, by decide, of_decide_eq_true hall⟩

end CompositeGraph
