/-
  LEVELS: an instance is one object for each class of a lineage, linked as the classes are.

  Objects are made from the class up.  Each is created in the scope of its class, becomes its own
  level, and gets the object before it below and the one after it above.  All of these are slots,
  and a slot keeps its old value where the new one would close a circle.  So each assignment needs
  that the chain from its value does not come back to the object.  Chains between the objects are
  known while they are built.  Chains that start at a class are not: a class may be linked to a
  handle that has not been given out yet, and the next object gets that handle.  `Store.Unborn`
  excludes just this.

    1. CHANGES.            One composite changes, or one is new; elsewhere only
                           lists of retainers do.
    2. CREATION.           An object, as it stands in the store once its own slots are set.
    3. GENERIC ARGUMENTS.  What is bound under a name.
    4. LEVELS.             `Machine.Instantiates`: the chain of objects for a list of classes, and
                           one more on top.
    5. LINEAGES.           `Store.Ascent`: the classes on the way up.  There is one such list in
                           every store.
    6. INSTANCES.          One step up, the whole chain, and an object out of
                           the scope of its class.
-/
import CompositeGraph.Proofs.Walks

namespace CompositeGraph

open Run Relation Store

/-! ## Changes -/

namespace Machine

variable {m m₁ m₂ : Machine} {x : Handle} {c : Composite} {f g : Composite → Composite}

/-- One composite has changed; of all else, only lists of retainers have. -/
structure Changes (m : Machine) (x : Handle) (f : Composite → Composite) (m' : Machine) : Prop where
  rest : m' = { m with store := m'.store }
  size : m'.store.size = m.store.size
  others : ∀ h, h ≠ x → m'.store.bare? h = m.store.bare? h
  self : m'.store.bare? x = (m.store.bare? x).map f

namespace Changes

theorem trans (h : m.Changes x f m₁) (h' : m₁.Changes x g m₂) :
    m.Changes x (fun c => g (f c)) m₂ where
  rest := by rw [h'.rest, h.rest]
  size := h'.size.trans h.size
  others k hk := (h'.others k hk).trans (h.others k hk)
  self := by
    rw [h'.self, h.self, Option.map_map]
    rfl

theorem bare? (h : m.Changes x f m₁) (hx : m.store.bare? x = some c) :
    m₁.store.bare? x = some (f c) := by
  rw [h.self, hx]
  rfl

/-- What is listed in other composites, and what has become of the composite itself. -/
theorem of_listedIn {d : Composite} (change : Composite → Composite) (new : List Handle)
    (hx : m.store.get? x = some d) (hchange : (change d).bare = f d.bare) :
    m.Changes x f { m with store := (m.store.modify x change).listedIn x new } where
  rest := rfl
  size := size_listedIn.trans (size_modify _ _)
  others k hk := (bare?_listedIn k).trans (bare?_modify_ne _ hk)
  self := by
    rw [bare?_listedIn, bare?_of_get? (get?_modify_self _ hx), hchange, bare?_of_get? hx]
    rfl

/-- Chains that lead to the composite have led to it before. -/
theorem onChain (h : m.Changes x f m₁) {slot : Slot} {v : Handle}
    (hchain : m₁.store.OnChain slot v x) : m.store.OnChain slot v x :=
  onChain_congr (fun a ha => (link?_of_bare? (h.others a ha) slot).symm) hchain

/-- Where no slot is set, no circle is closed. -/
theorem acyclic (h : m.Changes x f m₁) (hlinks : ∀ c, (f c).links = c.links)
    (hacyclic : m.store.Acyclic) : m₁.store.Acyclic := by
  refine hacyclic.of_link? fun slot a b _ hlink => ?_
  by_cases ha : a = x
  · subst ha
    rw [link?_eq_bind_bare?, h.self, Option.bind_map] at hlink
    rw [link?_eq_bind_bare?]
    simpa only [Function.comp_def, hlinks] using hlink
  · rwa [link?_of_bare? (h.others a ha)] at hlink

end Changes

/-- A composite is new; of all else, only lists of retainers have changed. -/
structure Adds (m : Machine) (c : Composite) (m' : Machine) : Prop where
  rest : m' = { m with store := m'.store }
  size : m'.store.size = m.store.size + 1
  others : ∀ h, h ≠ m.store.next → m'.store.bare? h = m.store.bare? h
  self : m'.store.bare? m.store.next = some c

namespace Adds

theorem changes (h : m.Adds c m₁) (h' : m₁.Changes m.store.next f m₂) : m.Adds (f c) m₂ where
  rest := by rw [h'.rest, h.rest]
  size := h'.size.trans h.size
  others k hk := (h'.others k hk).trans (h.others k hk)
  self := by
    rw [h'.self, h.self]
    rfl

theorem onChain (h : m.Adds c m₁) {slot : Slot} {v : Handle}
    (hchain : m₁.store.OnChain slot v m.store.next) : m.store.OnChain slot v m.store.next :=
  onChain_congr (fun a ha => (link?_of_bare? (h.others a ha) slot).symm) hchain

end Adds

end Machine

section Filling

variable {r : Rules} {m : Machine} {x v : Handle} {c : Composite} {slot slot' : Slot}

theorem Composite.bare_setSlot (c : Composite) (slot : Slot) (value : Option Handle) :
    (c.setSlot slot value).bare = c.bare.setSlot slot value := by
  cases slot <;> rfl

theorem Store.exists_of_bare? {s : Store} (h : s.bare? x = some c) :
    ∃ d, s.get? x = some d ∧ d.bare = c :=
  Option.map_eq_some_iff.mp h

/-- An empty slot is set if that closes no circle. -/
theorem setSlot_changes (hx : m.store.bare? x = some c) (halive : c.isAlive = true)
    (hempty : c.links.get slot = none)
    (hacyclic : m.store.Acyclic) (hfree : isChain slot = true → ¬m.store.OnChain slot v x)
    (hlinked : slot = .currentType → v ∈ c.type.references) :
    Ends m (setSlot r x slot (some v)) fun _ m' =>
      m.Changes x (·.setSlot slot (some v)) m' ∧ m'.store.Acyclic := by
  obtain ⟨d, hd, rfl⟩ := exists_of_bare? hx
  have hold : d.links.get slot = none := (d.get_bare slot).symm.trans hempty
  have hreturns : (isChain slot && (m.store.modify x fun c => c.setSlot slot (some v)).returns
    slot x) = false := by
    rw [Bool.and_eq_false_iff]
    cases hchain : isChain slot with
    | false => exact .inl rfl
    | true =>
      refine .inr (Bool.eq_false_iff.mpr fun h => ?_)
      exact hfree hchain ((returns_setSlot_iff hd hacyclic hchain v).mp h)
  have hmem : v ∈ (m.store.modify x fun c => c.setSlot slot (some v)).references x := by
    rw [references_of_get? (get?_modify_self _ hd)]
    by_cases hslot : slot = .currentType
    · exact Composite.mem_references.mpr ⟨.type, hlinked hslot⟩
    · exact Composite.mem_references_of_slot hslot (Links.get_set_self _ _ _)
  rw [Ends, setSlot_eq r hd, hold, hreturns, if_neg Bool.false_ne_true]
  refine ⟨(),
    { m with store := (m.store.modify x fun c => c.setSlot slot (some v)).listedIn x [v] }, ?_,
    .of_listedIn _ [v] hd (d.bare_setSlot slot (some v)), ?_⟩
  · exact retainOrRelease_listing
      (m := { m with store := m.store.modify x fun c => c.setSlot slot (some v) })
      (by rw [Store.isAlive, get?_modify_self _ hd]; exact halive) hmem
  · refine (hacyclic.setSlot hd hreturns).of_link? fun other a b _ hlink => ?_
    rwa [link?_of_bare? (bare?_listedIn a)] at hlink

/-- Two empty slots are set one after the other. -/
theorem setSlots_changes {v' : Handle} (hx : m.store.bare? x = some c) (halive : c.isAlive = true)
    (hne : slot' ≠ slot) (hempty : c.links.get slot = none) (hempty' : c.links.get slot' = none)
    (hacyclic : m.store.Acyclic) (hfree : isChain slot = true → ¬m.store.OnChain slot v x)
    (hfree' : isChain slot' = true → ¬m.store.OnChain slot' v' x)
    (hlinked : v ∈ c.type.references ∨ slot ≠ .currentType)
    (hlinked' : v' ∈ c.type.references ∨ slot' ≠ .currentType) :
    Ends m (do setSlot r x slot (some v); setSlot r x slot' (some v')) fun _ m' =>
      m.Changes x (fun c => (c.setSlot slot (some v)).setSlot slot' (some v')) m' ∧
        m'.store.Acyclic := by
  refine (setSlot_changes hx halive hempty hacyclic hfree fun h =>
    hlinked.resolve_right (not_not_intro h)).bind ?_
  rintro _ m₁ ⟨h₁, hacyclic₁⟩
  refine (setSlot_changes (h₁.bare? hx) halive ?_ hacyclic₁ ?_ ?_).mono fun _ m₂ h₂ =>
    ⟨h₁.trans h₂.1, h₂.2⟩
  · exact (Links.get_set_ne _ _ hne).trans hempty'
  · exact fun hchain h => hfree' hchain (h₁.onChain h)
  · exact fun h => hlinked'.resolve_right (not_not_intro h)

end Filling

/-! ## Creation -/

section Creation

variable {r : Rules} {m : Machine} {classHandle : Handle}

theorem createComposite_adds {title : Option String} {type : TypeTree} {scope : Handle}
    (hacyclic : m.store.Acyclic) (hscope : ¬m.store.OnChain .scope scope m.store.next) :
    Ends m (createComposite r title type (some scope)) fun x m' =>
      x = m.store.next ∧ m.Adds ((Composite.fresh title type).setSlot .scope (some scope)) m' ∧
        m'.store.Acyclic := by
  let m₀ : Machine := { m with store := (m.store.add (Composite.fresh title type)).1 }
  have hadded : m.Adds (Composite.fresh title type) m₀ := by
    refine ⟨rfl, size_add _, fun h hne => ?_, ?_⟩
    · rw [Store.bare?, get?_add_ne _ hne, Store.bare?]
    · rw [bare?_of_get? (get?_add_self _)]
      rfl
  show Ends m₀ (do
    setSlot r m.store.next .scope (some scope)
    type.references.forM (retainOrRelease r m.store.next)
    return m.store.next) _
  refine Ends.bind
    (setSlot_changes hadded.self (Composite.isAlive_fresh title type) rfl (hacyclic.add title type)
    (fun _ h => hscope (hadded.onChain h)) fun h => absurd h (by decide)) ?_
  rintro _ m₁ ⟨h₁, hacyclic₁⟩
  have hadds := hadded.changes h₁
  obtain ⟨d, hd, hbare⟩ := exists_of_bare? hadds.self
  have htype : d.type = type := congrArg Composite.type hbare
  have halive : m₁.store.isAlive m.store.next = true := by
    rw [Store.isAlive, hd]
    exact (congrArg Composite.isAlive hbare).trans (Composite.isAlive_fresh title type)
  have hlinks : ∀ y ∈ type.references, y ∈ m₁.store.references m.store.next := by
    intro y hy
    rw [references_of_get? hd]
    exact Composite.mem_references.mpr ⟨.type, by rw [Composite.linked, htype]; exact hy⟩
  refine Ends.bind (Q := fun _ m' =>
    m' = { m₁ with store := m₁.store.listedIn m.store.next type.references })
    ⟨(), _, forM_retainOrRelease_listedIn halive hlinks, rfl⟩ ?_
  rintro _ _ rfl
  refine Ends.pure ⟨rfl, ⟨?_, ?_, fun h hh => ?_, ?_⟩,
    hacyclic₁.of_link? fun slot a b _ hlink => ?_⟩
  · rw [hadds.rest]
  · exact size_listedIn.trans hadds.size
  · exact (bare?_listedIn h).trans (hadds.others h hh)
  · exact (bare?_listedIn _).trans hadds.self
  · rwa [link?_of_bare? (bare?_listedIn a)] at hlink

/-- An object of a class that is its own level. -/
def Composite.object (title : String) (classHandle self : Handle) (sub subType : Option Handle) :
    Composite :=
  { Composite.fresh (some title) (objectType classHandle) with
    links :=
      { scope := some classHandle, current := some self, currentType := some classHandle,
        sub, subType } }

theorem createObject_adds (below : Option (Handle × Handle)) (hacyclic : m.store.Acyclic)
    (hscope : ¬m.store.OnChain .scope classHandle m.store.next)
    (hbelow : ∀ b k, below = some (b, k) → m.store.type? b = some (objectType k) ∧
      ¬m.store.OnChain .sub b m.store.next ∧ ¬m.store.OnChain .subType k m.store.next) :
    Ends m (createObject r none classHandle (below.map (·.1))) fun x m' =>
      x = m.store.next ∧
        m.Adds (.object ("Object<" ++ m.titleOf classHandle ++ ">") classHandle
          m.store.next (below.map (·.1)) (below.map (·.2))) m' ∧ m'.store.Acyclic := by
  refine Ends.get_bind ((createComposite_adds hacyclic hscope).bind ?_)
  rintro _ m₁ ⟨rfl, h₁, hacyclic₁⟩
  have htype₁ : m₁.store.type? m.store.next = some (objectType classHandle) := by
    rw [type?_eq_map_bare?, h₁.self]
    rfl
  -- It is its own level, and its type is what it inherits.
  have hself : Ends m₁ (setSelfLevels r m.store.next m.store.next) fun _ m' =>
      m.Adds (.object ("Object<" ++ m.titleOf classHandle ++ ">") classHandle
        m.store.next none none) m' ∧
        m'.store.Acyclic := by
    refine Ends.store_bind ?_
    rw [selfType?_of_type? htype₁]
    refine (setSlots_changes h₁.self rfl (by decide) rfl rfl hacyclic₁ ?_ ?_ (.inr (by decide))
      (.inl (mem_references_objectType classHandle))).mono fun _ m₂ h₂ => ⟨h₁.changes h₂.1, h₂.2⟩
    · exact fun h => absurd h (by decide)
    · exact fun h => absurd h (by decide)
  refine Ends.bind hself ?_
  rintro _ m₂ ⟨h₂, hacyclic₂⟩
  cases below with
  | none =>
    exact (Ends.store_bind (Ends.pure ⟨h₂, hacyclic₂⟩)).bind fun _ m₃ h₃ => Ends.pure ⟨rfl, h₃⟩
  | some below =>
    obtain ⟨b, k⟩ := below
    obtain ⟨htype, hsub, hsubType⟩ := hbelow b k rfl
    have hne : b ≠ m.store.next := by
      rintro rfl
      rw [Store.type?, get?_next] at htype
      cases htype
    have htype₂ : m₂.store.type? b = some (objectType k) :=
      (type?_of_bare? (h₂.others b hne)).trans htype
    obtain ⟨d, hd, hdtype⟩ := Option.map_eq_some_iff.mp htype₂
    obtain ⟨e, he, hebare⟩ := exists_of_bare? h₂.self
    have hkinds : (m₂.store.isKind .object m.store.next && m₂.store.isKind .object b) = true := by
      have hetype : e.type = objectType classHandle := congrArg Composite.type hebare
      rw [Store.isKind, Store.isKind, Store.kind?, Store.kind?, he, hd,
        Option.bind_some, Option.bind_some, Composite.kind?, Composite.kind?, hetype, hdtype]
      rfl
    have hinherited : (m₂.store.get? b).bind (fun composite => composite.type.inherited?) =
      some k := by
      rw [hd, Option.bind_some, hdtype, inherited?_objectType]
    have hlevels : Ends m₂ (setSubLevels r m.store.next (some b)) fun _ m' =>
        m.Adds (.object ("Object<" ++ m.titleOf classHandle ++ ">") classHandle m.store.next
          (some b) (some k)) m' ∧
          m'.store.Acyclic := by
      refine Ends.store_bind ?_
      dsimp only
      rw [if_pos hkinds, hinherited]
      refine (setSlots_changes h₂.self rfl (by decide) rfl rfl hacyclic₂ ?_ ?_ (.inr (by decide))
        (.inr (by decide))).mono fun _ m₃ h₃ => ⟨h₂.changes h₃.1, h₃.2⟩
      · exact fun _ h => hsub (h₂.onChain h)
      · exact fun _ h => hsubType (h₂.onChain h)
    exact Ends.bind hlevels fun _ m₃ h₃ => Ends.pure ⟨rfl, h₃⟩

end Creation

/-! ## Generic arguments -/

/-- The meaning of a name that a generic argument is bound to. -/
def Overload.binding (argument : TypeTree) : Overload :=
  { type := .ofPredefined .type, value := some (.type argument) }

/-- Members with one generic argument more, under the name of its parameter. -/
def withGeneric (members : Assoc (List Overload)) (pair : TypePart × TypeTree) :
    Assoc (List Overload) :=
  match pair.1.identifier with
  | some name => members.put name ((members.get? name).getD [] ++ [.binding pair.2])
  | none => members

/-- Under a name are the arguments of all parameters of that name, behind what was there. -/
theorem get?_foldl_withGeneric (pairs : List (TypePart × TypeTree))
    (members : Assoc (List Overload)) (name : String) :
    ((pairs.foldl withGeneric members).get? name).getD [] = (members.get? name).getD [] ++
      (pairs.filter fun pair => pair.1.identifier == some name).map fun pair =>
        .binding pair.2 := by
  induction pairs generalizing members with
  | nil => simp
  | cons pair pairs ih =>
    rw [List.foldl_cons, ih]
    cases hidentifier : pair.1.identifier with
    | none => simp [withGeneric, hidentifier]
    | some other =>
      by_cases hname : other = name
      · subst hname
        simp [withGeneric, hidentifier, Assoc.get?_put_self]
      · simp [withGeneric, hidentifier, hname, Assoc.get?_put_ne]

/-- The generic parameters of a class. -/
def Store.genericsOf (s : Store) (classHandle : Handle) : List TypePart :=
  ((s.get? classHandle).map fun composite => composite.type.genericParameters).getD []

theorem Store.genericsOf_of_bare? {s t : Store} {classHandle : Handle}
    (h : t.bare? classHandle = s.bare? classHandle) :
    t.genericsOf classHandle = s.genericsOf classHandle := by
  have hview : ∀ s : Store,
      s.genericsOf classHandle = ((s.type? classHandle).map TypeTree.genericParameters).getD
      [] := by
    intro s
    rw [genericsOf, type?, Option.map_map]
    rfl
  rw [hview, type?_of_bare? h, ← hview]

section Generics

variable {r : Rules} {m : Machine} {x : Handle} {c : Composite}

/-- A binding names no composite, so nothing is listed for it. -/
theorem bindName_changes (hx : m.store.bare? x = some c) (name : String) (argument : TypeTree) :
    Ends m (bindName r x name (.ofPredefined .type) (some (.type argument))) fun _ m' =>
      m.Changes x (fun c =>
        { c with
          members := c.members.put name
            ((c.members.get? name).getD [] ++ [.binding argument]) }) m' := by
  obtain ⟨d, hd, -⟩ := exists_of_bare? hx
  let change := fun c : Composite =>
    { c with
      members := c.members.put name
        ((d.members.get? name).getD [] ++ [Overload.binding argument]) }
  have hplace : placeOverload (.binding argument) none ((d.members.get? name).getD []) =
      (none, (d.members.get? name).getD [] ++ [Overload.binding argument]) := rfl
  have hreconcile : ∀ m : Machine,
      Ends m (reconcile r x [] (Overload.binding argument).references) fun _ m' => m' = m := by
    intro m
    have hreferences : (Overload.binding argument).references = [] := rfl
    rw [reconcile, hreferences, missingFrom_nil]
    exact Ends.pure rfl
  refine (Ends.store_bind ?_).bind fun _ _ h => Ends.pure h
  dsimp only [Placement.target]
  rw [hd]
  dsimp only
  rw [← Overload.binding, hplace]
  refine Ends.modifyStore_bind ((hreconcile _).bind ?_)
  rintro _ _ rfl
  exact Ends.pure (.of_listedIn change [] hd rfl)

/-- All generic arguments are bound on an object, by the parameters of its class. -/
theorem bindGenerics_changes (hx : m.store.bare? x = some c) (classHandle : Handle)
    (generics : List TypeTree) :
    Ends m (bindGenerics r x classHandle generics) fun _ m' => m.Changes x (fun c =>
      { c with
        members := ((m.store.genericsOf classHandle).zip generics).foldl withGeneric
          c.members }) m' := by
  refine Ends.store_bind ?_
  dsimp only
  rw [← Store.genericsOf]
  generalize (m.store.genericsOf classHandle).zip generics = pairs
  induction pairs generalizing m c with
  | nil => exact Ends.pure ⟨rfl, rfl, fun _ _ => rfl, Option.map_id'.symm⟩
  | cons pair pairs ih =>
    have hone : Ends m (match pair.1.identifier with
        | some identifier => bindName r x identifier (.ofPredefined .type) (some (.type pair.2))
        | none => return) fun _ m' =>
            m.Changes x (fun c => { c with members := withGeneric c.members pair }) m' := by
      unfold withGeneric
      cases pair.1.identifier with
      | none => exact Ends.pure ⟨rfl, rfl, fun _ _ => rfl, Option.map_id'.symm⟩
      | some name => exact bindName_changes hx name pair.2
    exact Ends.bind hone fun _ m₁ h₁ => (ih (h₁.bare? hx)).mono fun _ m₂ h₂ => h₁.trans h₂

end Generics

/-! ## Levels -/

/-- The links of the object on a level: it is its own level, and between the objects for the classes
    before and after its own. -/
def levelLinks (first : Nat) (classes : List Handle) (i : Nat) : Links where
  super := classes[i + 1]?.map fun _ => ⟨first + (i + 1), 0⟩
  superType := classes[i + 1]?
  current := some ⟨first + i, 0⟩
  currentType := classes[i]?
  sub := if i = 0 then none else some ⟨first + (i - 1), 0⟩
  subType := if i = 0 then none else classes[i - 1]?
  scope := classes[i]?

namespace Machine

/-- The object on a level.  Only the first has members. -/
def levelObject (m : Machine) (classes : List Handle) (bound : Assoc (List Overload)) (i : Nat)
    (classHandle : Handle) : Composite where
  title := some ("Object<" ++ m.titleOf classHandle ++ ">")
  links := levelLinks m.store.size classes i
  life := .creating
  type := objectType classHandle
  statements := .none
  imports := .empty
  operators := .empty
  members := if i = 0 then bound else .empty
  observers := []

/-- For each of some classes an object is new, all of them in a chain; of all else, only lists of
    retainers have changed. -/
structure Instantiates (m : Machine) (classes : List Handle) (bound : Assoc (List Overload))
    (m' : Machine) : Prop where
  rest : m' = { m with store := m'.store }
  size : m'.store.size = m.store.size + classes.length
  others : ∀ h, (∀ i < classes.length, h ≠ ⟨m.store.size + i, 0⟩) →
    m'.store.bare? h = m.store.bare? h
  levels : ∀ i classHandle, classes[i]? = some classHandle →
    m'.store.bare? ⟨m.store.size + i, 0⟩ = some (m.levelObject classes bound i classHandle)

end Machine

section Levels

variable {first i : Nat} {classes : List Handle} {c : Handle}

theorem levelLinks_append_of_lt (hi : i + 1 < classes.length) :
    levelLinks first (classes ++ [c]) i = levelLinks first classes i := by
  simp only [levelLinks, List.getElem?_append_left hi,
    List.getElem?_append_left (Nat.lt_of_succ_lt hi),
    List.getElem?_append_left (Nat.lt_of_le_of_lt (Nat.sub_le i 1) (Nat.lt_of_succ_lt hi))]

theorem levelLinks_append_last (hi : i + 1 = classes.length) :
    levelLinks first (classes ++ [c]) i =
      ((levelLinks first classes i).set .super (some ⟨first + (i + 1), 0⟩)).set
        .superType (some c) := by
  have hlt : i < classes.length := by omega
  have hpred : i - 1 < classes.length := by omega
  simp only [levelLinks, Links.set, List.getElem?_append_left hlt, List.getElem?_append_left hpred,
    List.getElem?_append_right (Nat.le_of_eq hi.symm), ← hi, Nat.sub_self,
    List.getElem?_cons_zero, Option.map_some]

theorem levelLinks_append_new {b : Handle} (hi : i + 1 = classes.length)
    (hb : classes[i]? = some b) : levelLinks first (classes ++ [c]) (i + 1) =
      { scope := some c, current := some ⟨first + (i + 1), 0⟩, currentType := some c,
        sub := some ⟨first + i, 0⟩, subType := some b } := by
  have hown : (classes ++ [c])[i + 1]? = some c := by
    rw [hi, List.getElem?_append_right (Nat.le_refl _), Nat.sub_self]
    rfl
  have habove : (classes ++ [c])[i + 1 + 1]? = none := by
    rw [List.getElem?_eq_none_iff, List.length_append, List.length_singleton]
    omega
  have hbelow : (classes ++ [c])[i]? = some b := (List.getElem?_append_left (by omega)).trans hb
  simp only [levelLinks, hown, habove, hbelow, Option.map_none, if_neg (Nat.succ_ne_zero i),
    Nat.add_sub_cancel]

end Levels

namespace Machine.Instantiates

variable {m m₁ m₂ : Machine} {classes : List Handle} {bound : Assoc (List Overload)}
  {c k : Handle} {i : Nat}

/-- The class that an object on a level is made for. -/
theorem type? (h : m.Instantiates classes bound m₁) (hk : classes[i]? = some k) :
    m₁.store.type? ⟨m.store.size + i, 0⟩ = some (objectType k) := by
  rw [type?_eq_map_bare?, h.levels i k hk]
  rfl

/-- What was there before has not changed. -/
theorem old (h : m.Instantiates classes bound m₁) {x : Handle} (hx : x.index < m.store.size) :
    m₁.store.bare? x = m.store.bare? x := by
  refine h.others x fun i _ heq => ?_
  rw [heq] at hx
  exact absurd hx (Nat.not_lt.mpr (Nat.le_add_right _ _))

/-- An object is no class. -/
theorem isInstantiable (h : m.Instantiates classes bound m₁) (x : Handle) :
    m₁.store.isInstantiable x = m.store.isInstantiable x := by
  by_cases hnew : ∀ i < classes.length, x ≠ ⟨m.store.size + i, 0⟩
  · exact isInstantiable_of_type? (type?_of_bare? (h.others x hnew))
  · obtain ⟨i, hi, rfl⟩ : ∃ i < classes.length, x = ⟨m.store.size + i, 0⟩ := by simpa using hnew
    have hbefore : m.store.isInstantiable ⟨m.store.size + i, 0⟩ = false := by
      refine Bool.eq_false_iff.mpr fun hinst => ?_
      have := index_lt_size_of_contains (contains_of_isInstantiable hinst)
      exact absurd this (Nat.not_lt.mpr (Nat.le_add_right _ _))
    rw [hbefore, Store.isInstantiable, kind?_eq_bind_type?, h.type? (List.getElem?_eq_getElem hi)]
    rfl

/-- From a level the objects below are reached, and nothing else. -/
theorem of_onChain_sub (h : m.Instantiates classes bound m₁) (hi : i < classes.length) {x : Handle}
    (hchain : m₁.store.OnChain .sub ⟨m.store.size + i, 0⟩ x) : x.index ≤ m.store.size + i := by
  have hlevel : ∃ j ≤ i, x = ⟨m.store.size + j, 0⟩ := by
    induction hchain with
    | refl => exact ⟨i, Nat.le_refl i, rfl⟩
    | tail _ hstep ih =>
      obtain ⟨j, hj, rfl⟩ := ih
      have hlevel := h.levels j _ (List.getElem?_eq_getElem (Nat.lt_of_le_of_lt hj hi))
      rw [Store.Next, link?_eq_bind_bare?, hlevel] at hstep
      change (if j = 0 then none else some (⟨m.store.size + (j - 1), 0⟩ : Handle)) = some _ at hstep
      split at hstep
      · cases hstep
      · cases hstep
        exact ⟨j - 1, by omega, rfl⟩
  obtain ⟨j, hj, rfl⟩ := hlevel
  exact Nat.add_le_add_left hj _

/-- One more object is put on top. -/
theorem append (h : m.Instantiates classes bound m₁) (hi : i + 1 = classes.length) {b : Handle}
    (hb : classes[i]? = some b) {m₃ : Machine} (hadds : m₁.Adds
      (.object ("Object<" ++ m.titleOf c ++ ">") c m₁.store.next
        (some ⟨m.store.size + i, 0⟩) (some b)) m₂)
    (hchanges : m₂.Changes ⟨m.store.size + i, 0⟩
      (fun d => (d.setSlot .super (some m₁.store.next)).setSlot .superType (some c)) m₃) :
    m.Instantiates (classes ++ [c]) bound m₃ := by
  have hnext : m₁.store.next = ⟨m.store.size + (i + 1), 0⟩ := by rw [Store.next, h.size, ← hi]
  have hne : ∀ j ≤ i, (⟨m.store.size + j, 0⟩ : Handle) ≠ m₁.store.next := by
    intro j hj heq
    have := congrArg Handle.index (heq.trans hnext)
    dsimp only at this
    omega
  refine ⟨?_, ?_, fun x hx => ?_, fun j k hk => ?_⟩
  · rw [hchanges.rest, hadds.rest, h.rest]
  · rw [hchanges.size, hadds.size, h.size, List.length_append, List.length_singleton, Nat.add_assoc]
  · rw [List.length_append, List.length_singleton] at hx
    rw [hchanges.others x (hx i (by omega)), hadds.others x (hnext ▸ hx (i + 1) (by omega))]
    exact h.others x fun j hj => hx j (by omega)
  · rcases Nat.lt_trichotomy j i with hlt | rfl | hgt
    -- below the last two nothing has changed
    · rw [List.getElem?_append_left (by omega)] at hk
      have hfar : (⟨m.store.size + j, 0⟩ : Handle) ≠ ⟨m.store.size + i, 0⟩ := by
        intro heq
        have := congrArg Handle.index heq
        dsimp only at this
        omega
      rw [hchanges.others _ hfar, hadds.others _ (hne j (by omega)), h.levels j k hk,
        levelObject, levelObject, levelLinks_append_of_lt (by omega)]
    -- the last one before gets the new one above it
    · rw [List.getElem?_append_left (by omega)] at hk
      rw [hchanges.self, hadds.others _ (hne j (Nat.le_refl j)), h.levels j k hk,
        levelObject, levelObject, levelLinks_append_last hi, hnext]
      rfl
    · obtain rfl : j = i + 1 := by
        have := (List.getElem?_eq_some_iff.mp hk).1
        rw [List.length_append, List.length_singleton] at this
        omega
      rw [hi, List.getElem?_append_right (Nat.le_refl _), Nat.sub_self] at hk
      cases hk
      rw [← hnext, hchanges.others _ (hne i (Nat.le_refl i)).symm, hadds.self, levelObject,
        levelLinks_append_new hi hb, if_neg (Nat.succ_ne_zero i), hnext]
      rfl

end Machine.Instantiates

/-- The first object of a chain has nothing above it and nothing below. -/
theorem Machine.Adds.instantiates {m m₁ m₂ : Machine} {c : Handle}
    {pairs : List (TypePart × TypeTree)}
    (hadds : m.Adds (.object ("Object<" ++ m.titleOf c ++ ">") c m.store.next none none) m₁)
    (hchanges : m₁.Changes m.store.next
      (fun d => { d with members := pairs.foldl withGeneric d.members }) m₂) :
    m.Instantiates [c] (pairs.foldl withGeneric .empty) m₂ := by
  have h := hadds.changes hchanges
  refine ⟨h.rest, h.size, fun x hx => h.others x (hx 0 (by simp)), fun i k hk => ?_⟩
  obtain ⟨hi, rfl⟩ : i = 0 ∧ c = k := by
    cases i with
    | zero => exact ⟨rfl, Option.some.inj hk⟩
    | succ i => cases hk
  subst hi
  exact h.self

/-- Chains that avoid what is new are as they were. -/
theorem Store.onChain_of_avoids {s t : Store} {slot : Slot} (new : Handle → Prop) {c x : Handle}
    (hsame : ∀ a, ¬new a → t.link? slot a = s.link? slot a)
    (havoids : ∀ a, new a → ¬s.OnChain slot c a)
    (hchain : t.OnChain slot c x) : s.OnChain slot c x := by
  induction hchain with
  | refl => exact .refl
  | @tail a b _ hstep ih => exact ih.tail ((hsame a fun hnew => havoids a hnew ih).symm.trans hstep)

/-! ## Lineages -/

/-- The classes on the way up from one that objects can be made of, each once: the next one is the
    first that a class inherits. -/
inductive Store.Ascent (s : Store) :
    (seen : List Handle) → (level : Option Handle) → List Handle → Prop where
  | top {seen : List Handle} : Ascent s seen none []
  | stop {seen : List Handle} {c : Handle} : s.isInstantiable c = false ∨ c ∈ seen →
      Ascent s seen (some c) []
  | step {seen classes : List Handle} {c : Handle} : s.isInstantiable c = true → c ∉ seen →
    Ascent s (c :: seen) ((s.type? c).bind TypeTree.inherited?) classes →
    Ascent s seen (some c) (c :: classes)

/-- No chain that starts at one of the classes leads to an object that is yet to be
    made for one of them. -/
def Store.Unborn (s : Store) (classes : List Handle) : Prop :=
  ∀ c ∈ classes, ∀ slot ∈ [Slot.scope, .superType, .subType], ∀ i < classes.length,
    ¬s.OnChain slot c ⟨s.size + i, 0⟩

namespace Store

variable {s t : Store} {seen classes : List Handle} {level : Option Handle}

theorem Ascent.unique (h : s.Ascent seen level classes) {others : List Handle}
    (h' : s.Ascent seen level others) : others = classes := by
  induction h generalizing others with
  | top =>
    cases h'
    rfl
  | stop hstop =>
    cases h' with
    | stop => rfl
    | step hinst hnew =>
      rcases hstop with hstop | hstop
      · rw [hinst] at hstop
        cases hstop
      · exact absurd hstop hnew
  | step hinst hnew _ ih =>
    cases h' with
    | stop hstop =>
      rcases hstop with hstop | hstop
      · rw [hinst] at hstop
        cases hstop
      · exact absurd hstop hnew
    | step _ _ h' => rw [ih h']

/-- There are no more classes than slots. -/
theorem exists_ascent (steps : Nat) (hnodup : seen.Nodup) (hthere : ∀ h ∈ seen, s.contains h = true)
    (henough : s.size ≤ steps + seen.length) (level : Option Handle) :
      ∃ classes, s.Ascent seen level classes := by
  induction steps generalizing seen level with
  | zero =>
    cases level with
    | none => exact ⟨[], .top⟩
    | some c =>
      refine ⟨[], .stop ?_⟩
      cases hinst : s.isInstantiable c with
      | false => exact .inl rfl
      | true =>
        exact .inr
          (mem_of_size_le_length hnodup hthere (by omega) (contains_of_isInstantiable hinst))
  | succ steps ih =>
    cases level with
    | none => exact ⟨[], .top⟩
    | some c =>
      by_cases hgo : s.isInstantiable c = true ∧ c ∉ seen
      · have hc := contains_of_isInstantiable hgo.1
        obtain ⟨classes, hclasses⟩ :=
          ih (List.nodup_cons.mpr ⟨hgo.2, hnodup⟩) (List.forall_mem_cons.mpr ⟨hc, hthere⟩)
          (by rw [List.length_cons]; omega) ((s.type? c).bind TypeTree.inherited?)
        exact ⟨c :: classes, .step hgo.1 hgo.2 hclasses⟩
      · refine ⟨[], .stop ?_⟩
        rw [not_and_or, not_not] at hgo
        exact hgo.imp_left fun h => Bool.eq_false_iff.mpr h

theorem Unborn.not_onChain (h : s.Unborn classes)
    (hsame : ∀ a, (∀ i < classes.length, a ≠ ⟨s.size + i, 0⟩) → t.bare? a = s.bare? a)
    {c : Handle} {slot : Slot}
    {i : Nat} (hc : c ∈ classes) (hslot : slot ∈ [Slot.scope, .superType, .subType])
    (hi : i < classes.length) : ¬t.OnChain slot c ⟨s.size + i, 0⟩ := by
  refine fun hchain =>
    h c hc slot hslot i hi (onChain_of_avoids (fun a => ∃ i < classes.length, a = ⟨s.size + i, 0⟩)
    (fun a ha => link?_of_bare? (hsame a fun i hi heq => ha ⟨i, hi, heq⟩) slot) ?_ hchain)
  rintro _ ⟨j, hj, rfl⟩
  exact h c hc slot hslot j hj

end Store

/-! ## Instances -/

section Building

variable {r : Rules} {m : Machine} {d x : Handle}

/-- An object without levels above it gets both. -/
theorem setSuperLevels_changes {c : Composite} {k : Handle} (hd : m.store.bare? d = some c)
    (halive : c.isAlive = true)
    (hsuper : c.links.super = none) (hsuperType : c.links.superType = none)
    (hx : m.store.type? x = some (objectType k)) (hacyclic : m.store.Acyclic)
    (hchain : ¬m.store.OnChain .super x d) (hchain' : ¬m.store.OnChain .superType k d) :
    Ends m (setSuperLevels r d (some x)) fun _ m' =>
      m.Changes d (fun c => (c.setSlot .super (some x)).setSlot .superType (some k)) m' ∧
        m'.store.Acyclic := by
  refine Ends.store_bind ?_
  rw [Option.bind_some, selfType?_of_type? hx]
  exact setSlots_changes hd halive (by decide) hsuper hsuperType hacyclic (fun _ => hchain)
    (fun _ => hchain')
    (.inr (by decide)) (.inr (by decide))

theorem Machine.titleOf_of_bare? {m' : Machine} (h : m'.store.bare? x = m.store.bare? x) :
    m'.titleOf x = m.titleOf x := by
  have hview : ∀ m : Machine, (m.store.get? x).bind (·.title) =
    (m.store.bare? x).bind (·.title) := by
    intro m
    rw [Store.bare?]
    cases m.store.get? x <;> rfl
  rw [Machine.titleOf, hview, h, ← hview, Machine.titleOf]

/-- Where a chain ends it leads nowhere. -/
theorem Store.eq_of_onChain {s : Store} {slot : Slot} {a b : Handle} (hend : s.link? slot a = none)
    (hchain : s.OnChain slot a b) : b = a := by
  rcases ReflTransGen.cases_head hchain with heq | ⟨_, hstep, _⟩
  · exact heq.symm
  · rw [Store.Next, hend] at hstep
    cases hstep

/-- One step up: an object for the next class is made and put above the last one. -/
theorem nextLevel_ends {α : Type} {rest : Handle → Run α} {Q : α → Machine → Prop} {m₀ : Machine}
    {bound : Assoc (List Overload)} {i : Nat} {done classes : List Handle} {c : Handle}
    (hinst : m₀.Instantiates done bound m) (hacyclic : m.store.Acyclic) (hi : i + 1 = done.length)
    (hunborn : m₀.store.Unborn (done ++ c :: classes)) (hc : m₀.store.contains c = true)
    (hrest : ∀ m', m₀.Instantiates (done ++ [c]) bound m' → m'.store.Acyclic →
      Ends m' (rest ⟨m₀.store.size + (i + 1), 0⟩) Q) :
    Ends m (do
      let object ← createObject r none c (some ⟨m₀.store.size + i, 0⟩)
      setSuperLevels r ⟨m₀.store.size + i, 0⟩ (some object)
      rest object) Q := by
  obtain ⟨b, hb⟩ : ∃ b, done[i]? = some b := ⟨_, List.getElem?_eq_getElem (by omega)⟩
  have hnext : m.store.next = ⟨m₀.store.size + (i + 1), 0⟩ := by rw [Store.next, hinst.size, ← hi]
  have hne : (⟨m₀.store.size + i, 0⟩ : Handle) ≠ m.store.next := by
    intro heq
    have := congrArg Handle.index (heq.trans hnext)
    dsimp only at this
    omega
  have hlength : (done ++ c :: classes).length = done.length + (classes.length + 1) := by
    rw [List.length_append, List.length_cons]
  have hmem : c ∈ done ++ c :: classes := List.mem_append_right _ List.mem_cons_self
  -- chains that start at classes meet none of the objects
  have hfree : ∀ {k : Handle} {slot : Slot},
    k ∈ done ++ c :: classes → slot ∈ [Slot.scope, .superType, .subType] →
      ¬m.store.OnChain slot k m.store.next := by
    intro k slot hk hslot
    rw [hnext]
    exact hunborn.not_onChain (fun a ha => hinst.others a fun j hj => ha j (by omega)) hk hslot
      (by omega)
  refine (createObject_adds (some (⟨m₀.store.size + i, 0⟩, b)) hacyclic
    (hfree hmem (by simp)) ?_).bind ?_
  · rintro _ _ ⟨⟩
    refine ⟨hinst.type? hb, fun hchain => ?_,
      hfree (List.mem_append_left _ (List.mem_of_getElem? hb)) (by simp)⟩
    have := hinst.of_onChain_sub (by omega) hchain
    rw [hnext] at this
    dsimp only at this
    omega
  rintro _ m₁ ⟨rfl, hadds, hacyclic₁⟩
  have htop : done[i + 1]? = none := by rw [List.getElem?_eq_none_iff, hi]
  refine Ends.bind
    (setSuperLevels_changes (k := c) ((hadds.others _ hne).trans (hinst.levels i b hb)) rfl
    (congrArg (Option.map _) htop) htop ?_ hacyclic₁ ?_ ?_) ?_
  · rw [type?_eq_map_bare?, hadds.self]
    rfl
  · refine fun hchain => hne (eq_of_onChain ?_ hchain)
    rw [link?_eq_bind_bare?, hadds.self]
    rfl
  · refine hunborn.not_onChain (fun a ha => ?_) hmem (by simp) (by omega)
    rw [hadds.others a (hnext ▸ ha (i + 1) (by omega))]
    exact hinst.others a fun j hj => ha j (by omega)
  rintro _ m₂ ⟨hchanges, hacyclic₂⟩
  rw [Machine.titleOf_of_bare? (hinst.old (index_lt_size_of_contains hc))] at hadds
  have hinst₂ := hinst.append hi hb hadds hchanges
  rw [hnext]
  exact hrest m₂ hinst₂ hacyclic₂

/-- What is built above the last object of a chain is the rest of the chain. -/
theorem buildChain_instantiates {m₀ : Machine} {generics : List TypeTree}
    {bound : Assoc (List Overload)}
    {steps i : Nat} {seen done classes : List Handle} {level : Option Handle}
    (hascent : m₀.store.Ascent seen level classes) (hinst : m₀.Instantiates done bound m)
    (hacyclic : m.store.Acyclic) (hi : i + 1 = done.length)
    (hunborn : m₀.store.Unborn (done ++ classes)) (hnodup : seen.Nodup)
    (hthere : ∀ h ∈ seen, m₀.store.contains h = true)
    (henough : m₀.store.size ≤ steps + seen.length) :
    Ends m (buildChain r generics steps seen (some ⟨m₀.store.size + i, 0⟩) level) fun _ m' =>
      m₀.Instantiates (done ++ classes) bound m' := by
  induction hascent generalizing m done steps i with
  | top =>
    rw [List.append_nil]
    cases steps <;> exact Ends.pure hinst
  | @stop seen c hstop =>
    rw [List.append_nil]
    cases steps with
    | zero => exact Ends.pure hinst
    | succ steps =>
      have hstop' : (!m.store.isInstantiable c || seen.contains c) = true := by
        rw [hinst.isInstantiable]
        simpa using hstop
      refine Ends.store_bind ?_
      dsimp only
      rw [← Store.isInstantiable, if_pos hstop']
      exact Ends.pure hinst
  | @step seen classes c hc hnew _ ih =>
    have hcontains := contains_of_isInstantiable hc
    cases steps with
    | zero => exact absurd (mem_of_size_le_length hnodup hthere (by omega) hcontains) hnew
    | succ steps =>
      have hgo : ¬(!m.store.isInstantiable c || seen.contains c) = true := by
        rw [hinst.isInstantiable]
        simpa [hc] using hnew
      refine Ends.store_bind ?_
      dsimp only
      rw [← Store.isInstantiable, if_neg hgo]
      refine nextLevel_ends hinst hacyclic hi hunborn hcontains fun m₂ hinst₂ hacyclic₂ =>
        Ends.store_bind ?_
      have habove : ((m₂.store.get? c).bind fun composite => composite.type.inherited?) =
          (m₀.store.type? c).bind TypeTree.inherited? := by
        rw [← type?_of_bare? (hinst₂.old (index_lt_size_of_contains hcontains)), Store.type?]
        cases m₂.store.get? c <;> rfl
      rw [habove, List.append_cons]
      refine (ih hinst₂ hacyclic₂ ?_ ?_ ?_ ?_ ?_).bind fun _ _ h => Ends.pure h
      · rw [List.length_append, List.length_singleton, hi]
      · rwa [← List.append_cons]
      · exact List.nodup_cons.mpr ⟨hnew, hnodup⟩
      · exact List.forall_mem_cons.mpr ⟨hcontains, hthere⟩
      · rw [List.length_cons]
        omega

/-- A chain is built for a class and those above it, with the generic arguments
    bound on the first object. -/
theorem buildChain_mirrors {classHandle : Handle} {classes : List Handle} (generics : List TypeTree)
    (hascent : m.store.Ascent [] (some classHandle) classes)
    (hclass : m.store.isInstantiable classHandle = true)
    (hacyclic : m.store.Acyclic) (hunborn : m.store.Unborn classes) :
    Ends m (buildChain r generics m.store.size [] none (some classHandle)) fun object m' =>
      object = some m.store.next ∧
        m.Instantiates classes
          (((m.store.genericsOf classHandle).zip generics).foldl withGeneric .empty) m' := by
  have hcontains := contains_of_isInstantiable hclass
  have hlt := index_lt_size_of_contains hcontains
  obtain ⟨steps, hsteps⟩ : ∃ steps, m.store.size = steps + 1 := ⟨m.store.size - 1, by omega⟩
  cases hascent with
  | stop hstop =>
    rcases hstop with hstop | hstop
    · rw [hclass] at hstop
      cases hstop
    · exact absurd hstop List.not_mem_nil
  | @step _ classes _ _ _ hascent =>
    have hgo : ¬(!m.store.isInstantiable classHandle || [].contains classHandle) =
      true := by simp [hclass]
    rw [hsteps]
    refine Ends.store_bind ?_
    dsimp only
    rw [← Store.isInstantiable, if_neg hgo]
    refine (createObject_adds none hacyclic ?_ fun _ _ h => by cases h).bind ?_
    · exact hunborn classHandle List.mem_cons_self .scope (by simp) 0 (by simp)
    rintro _ m₁ ⟨rfl, hadds, hacyclic₁⟩
    have hne : classHandle ≠ m.store.next := fun h => Nat.lt_irrefl _ (h ▸ hlt)
    refine (bindGenerics_changes hadds.self classHandle generics).bind ?_
    rintro _ m₂ hchanges
    rw [genericsOf_of_bare? (hadds.others classHandle hne)] at hchanges
    have hinst := hadds.instantiates hchanges
    have habove : ((m₂.store.get? classHandle).bind fun composite => composite.type.inherited?) =
        (m.store.type? classHandle).bind TypeTree.inherited? := by
      rw [← type?_of_bare? (hinst.old hlt), Store.type?]
      cases m₂.store.get? classHandle <;> rfl
    refine Ends.store_bind ?_
    rw [habove]
    have hacyclic₂ := hchanges.acyclic (fun _ => rfl) hacyclic₁
    refine Ends.bind (buildChain_instantiates (i := 0) hascent hinst hacyclic₂ rfl hunborn
      (List.nodup_singleton _) (List.forall_mem_singleton.mpr hcontains) ?_) fun _ m₃ h =>
        Ends.pure ⟨rfl, h⟩
    rw [List.length_singleton]
    omega

end Building

/-- The objects of an instance mirror the lineage of its class.  There is one lineage.  If no chain
    that starts in it leads to a handle that is yet to be given out, one object is made for each
    class of it, and nothing else: each is of its class and in its scope, is its own level and is
    linked to those before and after it.  The generic arguments are bound on the first object, and
    what was there before keeps all but its list of retainers. -/
theorem objects_mirror_lineage (r : Rules) {m : Machine} {scope classHandle : Handle}
    (generics : List TypeTree)
    (hacyclic : m.store.Acyclic) (hclass : m.store.isInstantiable classHandle = true)
    (hfree : generics = [] → m.delegated? scope classHandle = none) :
    ∃ classes, (∀ others, m.store.Ascent [] (some classHandle) others ↔ others = classes) ∧
      (m.store.Unborn classes →
        Ends m (initializerObject r scope classHandle generics) fun object m' =>
          object = some m.store.next ∧ ∃ bound : Assoc (List Overload),
          m.Instantiates classes bound m' ∧
          ∀ name, (bound.get? name).getD [] =
            (((m.store.genericsOf classHandle).zip generics).filter fun pair =>
              pair.1.identifier == some name).map
              fun pair => .binding pair.2) := by
  obtain ⟨classes, hascent⟩ := exists_ascent (s := m.store) m.store.size List.nodup_nil
    (fun _ h => absurd h List.not_mem_nil) (Nat.le_refl _) (some classHandle)
  refine ⟨classes, fun others => ⟨hascent.unique, fun h => h ▸ hascent⟩, fun hunborn => ?_⟩
  have hdelegated : (if generics.isEmpty then m.delegated? scope classHandle else none) = none := by
    cases generics with
    | nil => exact hfree rfl
    | cons => rfl
  refine Ends.get_bind ?_
  dsimp only
  rw [hdelegated]
  refine Ends.store_bind ((buildChain_mirrors generics hascent hclass hacyclic hunborn).mono ?_)
  rintro object m' ⟨rfl, hinst⟩
  refine ⟨rfl, _, hinst, fun name => ?_⟩
  rw [get?_foldl_withGeneric]
  rfl

/-- Where all links name slots of the store, no chain leads out of it. -/
theorem Store.unborn_of_inside {s : Store} {classes : List Handle}
    (hinside : ∀ e ∈ s.live, ∀ slot ∈ Slot.all, ∀ b, e.2.links.get slot = some b → b.index < s.size)
    (hclasses : ∀ c ∈ classes, c.index < s.size) : s.Unborn classes := by
  intro c hc slot _ i _ hchain
  have hlt : (⟨s.size + i, 0⟩ : Handle).index < s.size := by
    generalize (⟨s.size + i, 0⟩ : Handle) = x at hchain
    induction hchain with
    | refl => exact hclasses c hc
    | @tail a b _ hstep _ =>
      obtain ⟨d, hd, hlink⟩ := Option.bind_eq_some_iff.mp hstep
      exact hinside (a, d) (mem_live.mpr hd) slot (by cases slot <;> decide) b hlink
  exact absurd hlt (Nat.not_lt.mpr (Nat.le_add_right _ _))

open Sketch

/-- A class with a generic parameter, and the class above it. -/
def boxes : Node := .bare (.module
  [derivedClass "A" [] [],
    .bare (.compositeDeclaration .class ⟨[], some (named "B"),
      [.bare (.genericParameter (some (named "T")) none)],
      [.bare (.typeIdentifier (some (named "A")) [])], some (body [])⟩)])

/-- An object of `B` gets one of `A` above it, and the argument of its parameter. -/
theorem objects_mirror_lineage_boxes :
    ∃ m, runModule (rules 40) boxes (.fresh {}) = .ok ((), m) ∧ m.store.Acyclic ∧
      m.store.isInstantiable ⟨5, 0⟩ = true ∧ m.delegated? ⟨0, 0⟩ ⟨5, 0⟩ = none ∧
        m.store.Unborn [⟨5, 0⟩, ⟨4, 0⟩] ∧
      Ends m (initializerObject (rules 40) ⟨0, 0⟩ ⟨5, 0⟩ [.ofPredefined .integer]) fun object m' =>
        object = some m.store.next ∧ ∃ bound, m.Instantiates [⟨5, 0⟩, ⟨4, 0⟩] bound m' ∧
          (bound.get? "T").getD [] = [.binding (.ofPredefined .integer)] := by
  have hcheck : (runModule (rules 40) boxes (.fresh {})).toOption.map (fun p =>
      decide (p.2.store.Acyclic ∧ p.2.store.isInstantiable ⟨5, 0⟩ = true ∧
        p.2.delegated? ⟨0, 0⟩ ⟨5, 0⟩ = none ∧
        (p.2.store.type? ⟨5, 0⟩).bind TypeTree.inherited? = some ⟨4, 0⟩ ∧
        p.2.store.isInstantiable ⟨4, 0⟩ = true ∧
        (p.2.store.type? ⟨4, 0⟩).bind TypeTree.inherited? = none ∧ 5 < p.2.store.size ∧
        (∀ e ∈ p.2.store.live, ∀ slot ∈ Slot.all, ∀ b,
          e.2.links.get slot = some b → b.index < p.2.store.size) ∧
        (p.2.store.genericsOf ⟨5, 0⟩).map (·.identifier) = [some "T", none])) =
        some true := by decide +kernel
  obtain ⟨⟨⟩, m, hrun, hall⟩ := Run.exists_ok_of_map hcheck
  obtain ⟨hacyclic, hclass, hfree, habove, hclass', htop, hsize, hinside, hgenerics⟩ :=
    of_decide_eq_true hall
  have hascent : m.store.Ascent [] (some ⟨5, 0⟩) [⟨5, 0⟩, ⟨4, 0⟩] := by
    refine .step hclass (by simp) ?_
    rw [habove]
    refine .step hclass' (by simp) ?_
    rw [htop]
    exact .top
  have hunborn : m.store.Unborn [⟨5, 0⟩, ⟨4, 0⟩] := by
    refine unborn_of_inside hinside ?_
    simp only [List.forall_mem_cons, List.not_mem_nil, false_implies, implies_true, and_true]
    exact ⟨hsize, Nat.lt_of_succ_lt hsize⟩
  obtain ⟨classes, hunique, hends⟩ :=
    objects_mirror_lineage (rules 40) [.ofPredefined .integer] hacyclic hclass
    fun h => by cases h
  obtain rfl := (hunique _).mp hascent
  refine ⟨m, hrun, hacyclic, hclass, hfree, hunborn, (hends hunborn).mono ?_⟩
  rintro object m' ⟨hobject, bound, hinst, hbound⟩
  refine ⟨hobject, bound, hinst, ?_⟩
  obtain ⟨parameter, rest, hgenericsOf, hidentifier, -⟩ := List.map_eq_cons_iff.mp hgenerics
  rw [hbound, hgenericsOf]
  simp [hidentifier]

/-- A class whose scope is a composite that is not there yet. -/
def unbornScope : Machine where
  store :=
    let global := Composite.fresh (some "Global") (.ofKind .namespace)
    let A : Composite :=
      { Composite.fresh (some "A") (.ofKind .class) with links := { scope := some ⟨2, 0⟩ } }
    ⟨#[⟨0, some global⟩, ⟨0, some A⟩]⟩

/-- The first object of the class takes the place of the scope.  It is not put into the scope of its
    class, since that would close a circle. -/
theorem object_out_of_scope :
    unbornScope.store.Acyclic ∧ unbornScope.store.isInstantiable ⟨1, 0⟩ = true ∧
      unbornScope.delegated? ⟨0, 0⟩ ⟨1, 0⟩ = none ∧
        unbornScope.store.Ascent [] (some ⟨1, 0⟩) [⟨1, 0⟩] ∧
      ∃ m', initializerObject (rules 1) ⟨0, 0⟩ ⟨1, 0⟩ [] unbornScope = .ok (some ⟨2, 0⟩, m') ∧
        m'.store.link? .currentType ⟨2, 0⟩ = some ⟨1, 0⟩ ∧ m'.store.link? .scope ⟨2, 0⟩ = none := by
  have hcheck : (initializerObject (rules 1) ⟨0, 0⟩ ⟨1, 0⟩ [] unbornScope).toOption.map (fun p =>
      decide (p.1 = some ⟨2, 0⟩ ∧ p.2.store.link? .currentType ⟨2, 0⟩ = some ⟨1, 0⟩ ∧
        p.2.store.link? .scope ⟨2, 0⟩ = none)) = some true := by decide +kernel
  obtain ⟨object, m', hrun, hall⟩ := Run.exists_ok_of_map hcheck
  obtain ⟨rfl, hlinks⟩ := of_decide_eq_true hall
  refine ⟨by decide +kernel, by decide +kernel, by decide +kernel, ?_, m', hrun, hlinks⟩
  exact .step (by decide +kernel) (by simp) .top

end CompositeGraph
