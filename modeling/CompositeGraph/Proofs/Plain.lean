/-
  PLAIN DISCIPLINES: those that let any handle be stored.

  What programs do to a store comes down to four changes: a composite is amended without touching
  its slots and its retainers, a slot is set, a composite is added, and a link between two
  composites is brought into line.  A plain discipline that grants these is kept by every operation.
  It need not grant them if a type that is not sound would come into the store, and it is strict.

    1. GRANTED.    `Amends`, `Grants`.
    2. CHANGES.    Slots, types, members and the like.
    3. CREATION.   New composites, and the chains of objects that initializers work on.
    4. PERMITTED.  `Permits`: the same of stores, for a discipline that asks nothing else.  It is
                   kept if only it is kept where a composite that is no
                   longer retained is destroyed.
    5. ENDINGS.    A discipline that also permits a life to end is kept at every depth.
-/
import CompositeGraph.Proofs.Evaluation
import CompositeGraph.Proofs.Links

namespace CompositeGraph

open Run

/-- The slots as they were, and the life as it was, unless an object has come into being. -/
structure Composite.Amends (d c : Composite) : Prop where
  slots : ∀ slot, d.links.get slot = c.links.get slot
  life : d.life = c.life ∨ c.life = .creating ∧ d.life = .idle

namespace Composite

theorem Amends.refl (c : Composite) : c.Amends c := ⟨fun _ => rfl, Or.inl rfl⟩

/-- Counting retainers amends a composite: its links and its statements stay. -/
theorem amends_mapRetainers (c : Composite) (change : List Handle → List Handle) :
    (c.mapRetainers change).Amends c := ⟨fun slot => by cases slot <;> rfl, Or.inl rfl⟩

/-- What is amended stays alive, or stays dead. -/
theorem Amends.isAlive {c d : Composite} (h : d.Amends c) : d.isAlive = c.isAlive := by
  unfold Composite.isAlive
  rcases h.life with hlife | ⟨hcreating, hidle⟩
  · rw [hlife]
  · rw [hcreating, hidle]
    rfl

variable {type : TypeTree}

/-- The types of a composite are its own and those of its members. -/
theorem mem_types {c : Composite} :
    type ∈ c.types ↔ type = c.type ∨ ∃ entry ∈ c.members.entries, ∃ o ∈ entry.2,
      type ∈ o.types := by
  simp only [types, List.mem_cons, List.mem_flatMap]

/-- The types of a composite with other meanings of a name. -/
theorem mem_types_put {c : Composite} {name : String} {overloads : List Overload}
    (h : type ∈ { c with members := c.members.put name overloads }.types) :
    type ∈ c.types ∨ ∃ o ∈ overloads, type ∈ o.types := by
  rcases mem_types.mp h with rfl | ⟨⟨other, others⟩, hentry, o, ho, ht⟩
  · exact .inl (mem_types.mpr (.inl rfl))
  · rcases Assoc.mem_entries_put.mp hentry with ⟨-, rfl⟩ | ⟨-, hentry⟩
    · exact .inr ⟨o, ho, ht⟩
    · exact .inl (mem_types.mpr (.inr ⟨_, hentry, o, ho, ht⟩))

theorem mem_types_remove {c : Composite} {name : String}
    (h : type ∈ { c with members := c.members.remove name }.types) : type ∈ c.types := by
  rcases mem_types.mp h with rfl | ⟨⟨other, others⟩, hentry, o, ho, ht⟩
  · exact mem_types.mpr (.inl rfl)
  · exact mem_types.mpr (.inr ⟨_, (Assoc.mem_entries_remove.mp hentry).2, o, ho, ht⟩)

end Composite

namespace Discipline

/-! ## Granted -/

/-- Any handle may be stored, and the changes that operations are made of keep the discipline. -/
structure Grants (D : Discipline) (r r' : Rules) : Prop where
  known : ∀ s h, D.known s h
  amend : ∀ {m f} h, (∀ c : Composite, (f c).Amends c) →
    (∀ c : Composite, (f c).links.retainers = c.links.retainers) →
    (D.strict → ∀ c, m.store.get? h = some c → ∀ type ∈ (f c).types, type.Sound) →
    D.Keeps m (modifyComposite h f) (modifyComposite h f)
  assign : ∀ {m h c} slot value, m.store.get? h = some c →
    (isChain slot && (m.store.modify h fun c => c.setSlot slot value).returns slot h) = false →
    D.Keeps m (modifyComposite h fun c => c.setSlot slot value) (modifyComposite h fun c =>
      c.setSlot slot value)
  add : ∀ {m} title {type}, (D.strict → type.Sound) → D.Makes m
    (modifyGet fun machine => ((machine.store.add (Composite.fresh title type)).2,
      { machine with store := (machine.store.add (Composite.fresh title type)).1 }))
    (modifyGet fun machine => ((machine.store.add (Composite.fresh title type)).2,
      { machine with store := (machine.store.add (Composite.fresh title type)).1 }))
  retainOrRelease : ∀ {m} a b, D.Keeps m (retainOrRelease r a b) (retainOrRelease r' a b)

/-- Where any handle may be stored, what holds no type is known. -/
theorem knows_typeless {D : Discipline} (hknown : ∀ s h, D.known s h)
    {α : Type} [Held α] [Typeless α] {s : Store} {a : α} : D.Knows s a := by
  intro x hx
  cases x with
  | handle h => exact hknown s h
  | type type => exact absurd hx (Typeless.not_mem a type)

namespace Grants

variable {D : Discipline} {r r' : Rules} {m : Machine} (hg : D.Grants r r')

include hg

/-- A result without types is known wherever it comes from. -/
theorem pure {α : Type} [Held α] [Typeless α] (a : α) : D.Keeps m (pure a) (pure a) :=
  Keeps.pure (knows_typeless hg.known)

variable (h : Handle)

/-- A composite is amended, and gets no types it did not have. -/
theorem modifyComposite {f : Composite → Composite} (hf : ∀ c : Composite, (f c).Amends c)
    (hretainers : ∀ c : Composite, (f c).links.retainers = c.links.retainers)
    (htypes : ∀ c : Composite, (f c).types ⊆ c.types) :
    D.Keeps m (Run.modifyComposite h f) (Run.modifyComposite h f) :=
  Keeps.assuming fun hm => hg.amend h hf hretainers fun hstrict c hget _ ht =>
    D.sound_stored hstrict hm.holds hget (htypes c ht)

/-! ## Changes -/

/-- Operators hold neither composites nor types. -/
theorem setOperator (symbol : String) (operator : Operator) :
    D.Keeps m (setOperator h symbol operator) (setOperator h symbol operator) := by
  unfold Run.setOperator
  split
  · exact hg.pure _
  · refine hg.modifyComposite h (fun c => ?_) (fun c => ?_) fun c => ?_
    · split
      · exact ⟨fun _ => rfl, Or.inl rfl⟩
      · exact .refl c
    · split <;> rfl
    · split <;> exact fun _ ht => ht

/-- A composite under construction becomes one that is idle. -/
theorem settle : D.Keeps m (settle h) (settle h) := by
  refine hg.modifyComposite h (fun c => ?_) (fun c => ?_) fun c => ?_
  · split
    · exact ⟨fun _ => rfl, Or.inr ⟨‹_›, rfl⟩⟩
    · exact .refl c
  · split <;> rfl
  · split <;> exact fun _ ht => ht

/-- A composite is amended, and then its links are settled. -/
theorem amendThen {f : Composite → Composite} {x y : Run Unit}
    (hf : ∀ c : Composite, (f c).Amends c)
    (hretainers : ∀ c : Composite, (f c).links.retainers = c.links.retainers)
    (htypes : ∀ c : Composite, (f c).types ⊆ c.types) (hxy : ∀ m', D.Keeps m' x y) :
    D.Keeps m (do Run.modifyComposite h f; x) (do Run.modifyComposite h f; y) :=
  (hg.modifyComposite h hf hretainers htypes).bind fun _ m' _ => hxy m'

/-- Retainers are exchanged one by one: what is retained first is released last. -/
theorem reconcile (a : Handle) (old new : List Handle) :
    D.Keeps m (reconcile r a old new) (reconcile r' a old new) :=
  Keeps.forM fun b _ _ _ => hg.retainOrRelease a b

/-- A link that changes is followed by its old target and its new one. -/
theorem setSlot (slot : Slot) (value : Option Handle) :
    D.Keeps m (setSlot r h slot value) (setSlot r' h slot value) := by
  refine Keeps.store_bind ?_
  split
  · exact hg.pure _
  rename_i c hget
  dsimp only
  split
  · exact hg.pure _
  rename_i hreturns
  refine (hg.assign slot value hget (by simpa using hreturns)).bind fun _ m₁ _ => ?_
  split
  · exact (Keeps.forM_option fun b _ => hg.retainOrRelease h b).bind fun _ _ _ =>
      Keeps.forM_option fun b _ => hg.retainOrRelease h b
  · exact hg.pure _

/-- The one step that brings in a type from outside, which has to be known. -/
theorem setType (htype : D.Knows m.store type) :
    D.Keeps m (setType r h type) (setType r' h type) := by
  refine Keeps.assuming fun hm => Keeps.store_bind ?_
  split
  · exact hg.pure _
  · refine Keeps.bind (hg.amend h (fun _ => ⟨fun _ => rfl, Or.inl rfl⟩) (fun _ => rfl) ?_)
      fun _ _ _ => hg.reconcile h _ _
    intro hstrict c hget t ht
    rcases List.mem_cons.mp ht with rfl | ht
    · exact (knows_type.mp htype).1 hstrict
    · exact D.sound_stored hstrict hm.holds hget (List.mem_cons_of_mem _ ht)

/-- Imports bring in no types. -/
theorem setImport (name : String) (imported : Handle) :
    D.Keeps m (setImport r h name imported) (setImport r' h name imported) := by
  refine Keeps.store_bind ?_
  split
  · exact hg.pure _
  · exact hg.amendThen h (fun _ => ⟨fun _ => rfl, Or.inl rfl⟩) (fun _ => rfl) (fun _ _ ht => ht)
      fun _ => hg.reconcile h _ _

theorem removeImport (name : String) :
    D.Keeps m (removeImport r h name) (removeImport r' h name) := by
  refine Keeps.store_bind ?_
  split
  · exact hg.pure _
  · exact hg.amendThen h (fun _ => ⟨fun _ => rfl, Or.inl rfl⟩) (fun _ => rfl) (fun _ _ ht => ht)
      fun _ => hg.retainOrRelease h _

/-- Nor do observers. -/
theorem addObserver (observer : Observer) :
    D.Keeps m (addObserver r h observer) (addObserver r' h observer) := by
  refine Keeps.store_bind ?_
  split
  · exact hg.amendThen h (fun _ => ⟨fun _ => rfl, Or.inl rfl⟩) (fun _ => rfl) (fun _ _ ht => ht)
      fun _ => hg.retainOrRelease h _
  · exact hg.pure _

theorem removeObserver (name : String) :
    D.Keeps m (removeObserver r h name) (removeObserver r' h name) := by
  refine Keeps.store_bind ?_
  split
  · exact hg.pure _
  · exact hg.amendThen h (fun _ => ⟨fun _ => rfl, Or.inl rfl⟩) (fun _ => rfl)
      (fun _ _ ht => ht) fun _ =>
        Keeps.forM fun _ _ _ _ => hg.retainOrRelease h _

/-- The types under the name are those of the member placed and of the members already there. -/
theorem setMember (name : String) {overload : Overload} (placement : Placement)
    (hoverload : D.Knows m.store overload) :
    D.Keeps m (setMember r h name overload placement) (setMember r' h name overload placement) := by
  refine Keeps.assuming fun hm => Keeps.store_bind ?_
  split
  · exact hg.pure _
  rename_i owner hget
  refine Keeps.bind (hg.amend _ (fun _ => ⟨fun _ => rfl, Or.inl rfl⟩) (fun _ => rfl) ?_)
    fun _ _ _ => Keeps.bind (hg.reconcile _ _ _) fun _ _ _ => hg.pure _
  intro hstrict c hget' type ht
  rcases Composite.mem_types_put ht with ht | ⟨o, ho, ht⟩
  · exact D.sound_stored hstrict hm.holds hget' ht
  · have hplaced : o = overload ∨ o ∈ (owner.members.get? name).getD [] := by
      rcases Composite.placeOverload_cases rfl with
        ⟨before, old, after, hlist, -, hplaced⟩ | ⟨-, hplaced⟩
      · rw [hplaced] at ho
        rw [hlist]
        grind
      · rw [hplaced] at ho
        grind
    have hknown : D.Knows m.store o := by
      rcases hplaced with rfl | ho
      · exact hoverload
      · exact knows_list.mp (knows_overloads hm.holds hget name) o ho
    exact (knows_overload_iff.mp hknown).2 type ht hstrict

/-- Removing a member removes types and adds none. -/
theorem removeMember (name : String) :
    D.Keeps m (removeMember r h name) (removeMember r' h name) := by
  refine Keeps.store_bind ?_
  split
  · exact hg.pure _
  · refine hg.amendThen h (fun _ => ⟨fun _ => rfl, Or.inl rfl⟩) (fun _ => rfl) ?_ fun _ =>
      hg.reconcile h _ _
    exact fun _ _ ht => Composite.mem_types_remove ht

/-! ### Levels -/

/-- Levels are set two at a time. -/
theorem setSlots (slot slot' : Slot) (value value' : Option Handle) :
    D.Keeps m (do Run.setSlot r h slot value; Run.setSlot r h slot' value')
      (do Run.setSlot r' h slot value; Run.setSlot r' h slot' value') :=
  (hg.setSlot h slot value).bind fun _ _ _ => hg.setSlot h slot' value'

theorem setSuperLevels (above : Option Handle) :
    D.Keeps m (setSuperLevels r h above) (setSuperLevels r' h above) :=
  Keeps.store_bind (hg.setSlots h _ _ _ _)

theorem setSelfLevels (h level : Handle) :
    D.Keeps m (setSelfLevels r h level) (setSelfLevels r' h level) :=
  Keeps.store_bind (hg.setSlots h _ _ _ _)

/-- Without a level below there is nothing to set. -/
theorem setSubLevels (object : Handle) (below : Option Handle) :
    D.Keeps m (setSubLevels r object below) (setSubLevels r' object below) := by
  refine Keeps.store_bind ?_
  cases below with
  | none => exact hg.pure _
  | some below =>
    dsimp only
    split
    · exact hg.setSlots object _ _ _ _
    · exact hg.pure _

/-- Levels are copied slot by slot. -/
theorem setInheritedLevels (h source : Handle) :
    D.Keeps m (setInheritedLevels r h source) (setInheritedLevels r' h source) := by
  unfold Run.setInheritedLevels
  split
  · exact Keeps.forM fun slot _ _ _ => Keeps.store_bind (hg.setSlot h slot _)
  · exact hg.pure _

/-! ## Creation -/

variable (title : Option String)

/-- A composite is added, linked to its scope, and made to retain what its type refers to. -/
theorem createComposite (htype : D.strict → type.Sound) (scope : Option Handle) :
    D.Makes m (createComposite r title type scope) (createComposite r' title type scope) := by
  refine Makes.bind (hg.add title htype) fun h m₁ _ hloose => ?_
  have hrest : ∀ m', D.Makes m' (do type.references.forM (Run.retainOrRelease r h); return h)
      (do type.references.forM (Run.retainOrRelease r' h); return h) := fun m' =>
    Keeps.bind_makes (Keeps.forM fun b _ _ _ => hg.retainOrRelease h b) fun _ _ _ =>
        Makes.pure (hg.known _ h) hloose
  split
  · exact Keeps.bind_makes (hg.setSlot h .scope scope) fun _ m₂ _ => hrest m₂
  · exact hrest m₁

theorem createSelfLeveled (kind : Kind) (scope : Option Handle) :
    D.Makes m (createSelfLeveled r title kind scope) (createSelfLeveled r' title kind scope) :=
  Makes.bind (hg.createComposite _ (fun _ => TypeTree.sound_ofPredefined _) _) fun h _ _ hloose =>
    Keeps.bind_makes (hg.setSelfLevels h h) fun _ _ _ => Makes.pure (hg.known _ h) hloose

/-- A function takes its levels from its scope. -/
theorem createFunction (statements : Statements) (scope : Option Handle) :
    D.Keeps m (createFunction r title statements scope)
      (createFunction r' title statements scope) :=
  Keeps.bind (hg.createComposite _ (fun _ => TypeTree.sound_ofPredefined _) _).keeps fun h _ _ =>
    Keeps.bind (hg.modifyComposite h (fun _ => ⟨fun _ => rfl, Or.inl rfl⟩) (fun _ => rfl)
      fun _ _ ht => ht) fun _ _ _ =>
        (Keeps.forM_option fun source _ => hg.setInheritedLevels h source).bind fun _ _ _ =>
          hg.pure _

/-- The levels of a namespace are its own, copied, or missing. -/
theorem createNamespace (scope : Option Handle) (levels : Levels) :
    D.Keeps m (createNamespace r title scope levels) (createNamespace r' title scope levels) := by
  refine Keeps.bind (hg.createComposite _ (fun _ => TypeTree.sound_ofPredefined _) _).keeps
    fun h _ _ => ?_
  cases levels with
  | own => exact (hg.setSelfLevels h h).bind fun _ _ _ => hg.pure _
  | copied source => exact (hg.setInheritedLevels h source).bind fun _ _ _ => hg.pure _
  | missing => exact hg.pure _

/-- An object is linked to the object above it and the one below. -/
theorem createObject (above : Option Handle) (classHandle : Handle) (below : Option Handle) :
    D.Keeps m (createObject r above classHandle below)
      (createObject r' above classHandle below) := by
  refine Keeps.get_bind (Keeps.bind
    (hg.createComposite _ (fun _ => TypeTree.sound_objectType _) _).keeps fun h m₁ _ => ?_)
  have hrest : ∀ m', D.Keeps m' (do Run.setSelfLevels r h h; Run.setSubLevels r h below; return h)
      (do Run.setSelfLevels r' h h; Run.setSubLevels r' h below; return h) := fun m' =>
    (hg.setSelfLevels h h).bind fun _ _ _ =>
      (hg.setSubLevels h below).bind fun _ _ _ => hg.pure _
  split
  · exact (hg.setSuperLevels h above).bind fun _ m₂ _ => hrest m₂
  · exact hrest m₁

/-- A declared composite is typed after it is created, because what it inherits is added to the
    type it was created with. -/
theorem createDeclared (kind : Kind) (identifier : Option String) (parts : CompositeParts Node)
    (scope : Handle) :
    D.Makes m (createDeclared r kind identifier parts scope)
      (createDeclared r' kind identifier parts scope) := by
  refine Makes.bind (hg.createSelfLeveled _ _ _) fun h m₁ _ hloose => Makes.assuming fun hm₁ =>
    Makes.store_bind ?_
  have hown : D.Knows m₁.store (((m₁.store.get? h).map (·.type)).getD .empty) := by
    cases hget : m₁.store.get? h with
    | none => exact knows_of_references_eq_nil TypeTree.sound_empty rfl
    | some c => exact knows_typeOf hm₁.holds hget
  refine Keeps.bind_makes (declaredType_keeps hown parts) fun type m₂ h₂ => ?_
  refine Keeps.bind_makes (hg.setType h h₂.knows) fun _ m₃ _ => ?_
  have hrest : ∀ m', D.Makes m'
      (do
        if kind.instantiable then
          Run.modifyComposite h fun target =>
            { target with statements := .block (objectStatements (bodyStatements parts.body)) }
        return h)
      (do
        if kind.instantiable then
          Run.modifyComposite h fun target =>
            { target with statements := .block (objectStatements (bodyStatements parts.body)) }
        return h) := by
    intro m'
    split
    · refine Keeps.bind_makes
        (hg.modifyComposite h (fun _ => ⟨fun _ => rfl, Or.inl rfl⟩) (fun _ => rfl) ?_) fun _ _ _ =>
          Makes.pure (hg.known _ h) hloose
      exact fun _ _ ht => ht
    · exact Makes.pure (hg.known _ h) hloose
  dsimp only
  split
  · exact Keeps.bind_makes (hg.setSuperLevels h _) fun _ m₄ _ => hrest m₄
  · exact hrest m₃

theorem bindName (space : Handle) (name : String) {value : Option Value}
    (htype : D.Knows m.store type) (hvalue : D.Knows m.store value) :
    D.Keeps m (bindName r space name type value) (bindName r' space name type value) :=
  (hg.setMember _ _ _ (knows_overload.mpr ⟨htype, hvalue, knows_nil⟩)).bind fun _ _ _ => hg.pure _

/-- Types are bound as far as there are names for them. -/
theorem bindGenerics (object classHandle : Handle) {generics : List TypeTree}
    (hgenerics : D.Knows m.store generics) :
    D.Keeps m (bindGenerics r object classHandle generics)
      (bindGenerics r' object classHandle generics) := by
  refine Keeps.store_bind (Keeps.forM fun pair hpair m' hl => ?_)
  have hargument := (knows_list.mp hgenerics pair.2 (List.of_mem_zip hpair).2).mono hl
  have htype :=
    knows_of_references_eq_nil (D := D) (s := m'.store) (TypeTree.sound_ofPredefined .type) rfl
  dsimp only
  split
  · exact hg.bindName _ _ htype (knows_some.mpr (knows_typeValue.mpr (knows_type.mp hargument).1))
  · exact hg.pure _

/-- By induction on the steps: one object for each class on the way up, until a
    class was visited. -/
theorem buildChain {generics : List TypeTree} (hgenerics : D.Knows m.store generics) (steps : Nat)
    (visited : List Handle) (derived level : Option Handle) :
    D.Keeps m (buildChain r generics steps visited derived level)
      (buildChain r' generics steps visited derived level) := by
  induction steps generalizing m visited derived level with
  | zero => exact hg.pure _
  | succ steps ih =>
    cases level with
    | none => exact hg.pure _
    | some level =>
      refine Keeps.store_bind ?_
      dsimp only
      split
      · exact hg.pure _
      refine (hg.createObject none level derived).bind fun object m₁ h₁ => ?_
      have hgenerics₁ := hgenerics.mono h₁.leads
      -- The rest of the chain is built on top of the object, which is what is given back.
      have hrest : ∀ m' : Machine, D.leads m₁.store m'.store → D.Keeps m'
          (do
            let above := ((← store).get? level).bind fun composite => composite.type.inherited?
            let _ ← Run.buildChain r generics steps (level :: visited) (some object) above
            return some object : Run (Option Handle))
          (do
            let above := ((← store).get? level).bind fun composite => composite.type.inherited?
            let _ ← Run.buildChain r' generics steps (level :: visited) (some object) above
            return some object) := fun m' hl =>
        Keeps.store_bind ((ih (hgenerics₁.mono hl) _ _ _).bind fun _ _ _ => hg.pure _)
      cases derived with
      | some derived => exact (hg.setSuperLevels derived _).bind fun _ m₂ h₂ => hrest m₂ h₂.leads
      | none =>
        exact (hg.bindGenerics object level hgenerics₁).bind fun _ m₂ h₂ => hrest m₂ h₂.leads

/-- An object delegated to is used as it is; otherwise a chain is built. -/
theorem initializerObject (scope classHandle : Handle) {generics : List TypeTree}
    (hgenerics : D.Knows m.store generics) :
    D.Keeps m (initializerObject r scope classHandle generics)
      (initializerObject r' scope classHandle generics) := by
  refine Keeps.get_bind ?_
  dsimp only
  split
  · exact hg.pure _
  · exact Keeps.store_bind (hg.buildChain hgenerics _ _ _ _)

/-- Whatever grants these changes is kept by all that programs do to a store. -/
theorem serves : D.Serves r r' where
  setMember h name _ placement hoverload := hg.setMember h name placement hoverload
  removeMember h name := hg.removeMember h name
  setType h _ htype := hg.setType h htype
  setImport h name _ _ := hg.setImport h name _
  setOperator h symbol operator := hg.setOperator h symbol operator
  settle h := hg.settle h
  createFunction title statements _ _ := hg.createFunction title statements _
  createNamespace title _ levels _ := hg.createNamespace title _ levels
  createDeclared kind identifier parts _ _ := hg.createDeclared kind identifier parts _
  initializerObject scope _ _ _ hgenerics := hg.initializerObject scope _ hgenerics

end Grants

/-! ## Permitted -/

/-- Any handle may be stored, and the stores that the changes lead to keep the discipline. -/
structure Permits (D : Discipline) : Prop where
  known : ∀ s h, D.known s h
  amend : ∀ {s f} h, (∀ c : Composite, (f c).Amends c) →
    (D.strict → ∀ c, s.get? h = some c → ∀ type ∈ (f c).types, type.Sound) → D.holds s →
    D.holds (s.modify h f) ∧ D.leads s (s.modify h f)
  assign : ∀ {s h c} slot value, s.get? h = some c →
    (isChain slot && (s.modify h fun c => c.setSlot slot value).returns slot h) = false →
    D.holds s →
    D.holds (s.modify h fun c => c.setSlot slot value) ∧
      D.leads s (s.modify h fun c => c.setSlot slot value)
  add : ∀ {s} title type, (D.strict → type.Sound) → D.holds s →
    D.holds (s.add (.fresh title type)).1 ∧ D.leads s (s.add (.fresh title type)).1

/-- A change of the store that a discipline of the store alone allows. -/
theorem Keeps.modifyStore {D : Discipline} [D.Storewise] {m : Machine} {change : Store → Store}
    (h : D.holds m.store → D.holds (change m.store) ∧ D.leads m.store (change m.store)) :
    D.Keeps m (Run.modifyStore change) (Run.modifyStore change) := by
  intro hm
  obtain ⟨hholds, hleads⟩ := h hm.holds
  exact Agree.modifyStore ⟨hholds, hleads, rfl, rfl, knows_unit, leads_free⟩

namespace Permits

variable {D : Discipline} [D.Storewise] {m : Machine} (hp : D.Permits)

include hp

/-- A list of retainers may change at any time. -/
theorem mapRetainers (h : Handle) (change : List Handle → List Handle) :
    D.Keeps m (modifyComposite h (·.mapRetainers change))
      (modifyComposite h (·.mapRetainers change)) :=
  Keeps.modifyStore fun hholds => hp.amend h (fun c => c.amends_mapRetainers _)
    (fun hstrict _ hget _ ht => D.sound_stored hstrict hholds hget ht) hholds

theorem retain (a b : Handle) : D.Keeps m (retain a b) (retain a b) := by
  unfold Run.retain
  split
  · exact Keeps.pure knows_unit
  · exact hp.mapRetainers b _

section Collecting

variable {r r' : Rules} (hc : D.Collecting r r')

include hc

/-- The retainer is dropped first, and then what nobody retains is collected. -/
theorem release (a b : Handle) : D.Keeps m (release r a b) (release r' a b) := by
  refine Keeps.store_bind ?_
  split
  · exact (hp.mapRetainers b _).bind fun _ _ _ => hc b
  · exact Keeps.pure knows_unit

theorem retainOrRelease (a b : Handle) :
    D.Keeps m (retainOrRelease r a b) (retainOrRelease r' a b) := by
  refine Keeps.get_bind ?_
  split
  · exact hp.retain a b
  · exact hp.release hc a b

/-- A discipline that permits amending and counting grants every change of the graph. -/
theorem grants : D.Grants r r' where
  known := hp.known
  amend h hf _ htypes := Keeps.modifyStore (hp.amend h hf htypes)
  assign slot value hget hreturns := Keeps.modifyStore (hp.assign slot value hget hreturns)
  add title type htype := by
    refine Keeps.makes fun hm => ?_
    obtain ⟨hholds, hleads⟩ := hp.add title type htype hm.holds
    exact Agree.of_eq rfl ⟨hholds, hleads, rfl, rfl, knows_typeless hp.known, leads_free⟩
  retainOrRelease a b := hp.retainOrRelease hc a b

/-- So a program may run: the graph is changed, and what is released collected. -/
theorem admits : D.Admits r r' where
  toServes := (hp.grants hc).serves
  destroyIfReleased h := hc h

end Collecting

end Permits

/-! ## Endings -/

/-- A life may end besides: a composite is marked, and later on its slot becomes a gap. -/
structure PermitsEnding (D : Discipline) : Prop extends D.Permits where
  die : ∀ {s} h, D.holds s → D.holds (s.dead h) ∧
    D.leads s (s.dead h)
  free : ∀ {s} h, D.holds s → D.holds (s.free h) ∧ D.leads s (s.free h)

namespace PermitsEnding

variable {D : Discipline} [D.Storewise] {m : Machine} (hp : D.PermitsEnding)

include hp

theorem removeFromStore (h : Handle) :
    D.Keeps m (removeFromStore h) (removeFromStore h) := by
  refine Keeps.store_bind ?_
  split
  · exact Keeps.pure knows_unit
  refine (Keeps.modifyStore (hp.free h)).bind fun _ _ _ => Keeps.store_bind ?_
  split
  · exact Keeps.report
  · exact Keeps.pure knows_unit

/-- A composite alive is marked, runs its deinitializer and departs.  Each step keeps the
    discipline; any other composite is left alone. -/
theorem destroyNow {r r' : Rules} (hc : D.Collecting r r') (ho : D.Obeys r r') (h : Handle) :
    D.Keeps m (destroyNow r h) (destroyNow r' h) := by
  have hdeparts : ∀ m', D.Keeps m' (depart r h) (depart r' h) := fun m' =>
    Keeps.store_bind ((Keeps.forM fun _ _ _ _ => hp.release hc h _).bind fun _ _ _ =>
      hp.removeFromStore h)
  intro hm
  by_cases ha : m.store.isAlive h = true
  · obtain ⟨hholds, hleads⟩ := hp.die h hm.holds
    have hstart : D.After m () { m with store := m.store.dead h } :=
      ⟨hholds, hleads, rfl, rfl, knows_unit, leads_free⟩
    have hends := runDeinitializer_keeps (hp.admits hc) ho (hp.known _ h) (hstart.fits hm)
    refine destroyNow_agrees ha hstart (hends.mono fun _ _ h₁ => hstart.trans h₁) fun m₁ h₁ => ?_
    exact (hdeparts m₁ (h₁.fits hm)).mono fun _ _ h₂ => h₁.trans h₂
  · exact destroyNow_idle ha (.refl hm knows_unit)

/-- At every depth the rules keep the discipline. -/
theorem obeys (depth : Nat) :
    D.Obeys (rules depth) (rules depth) ∧
      ∀ {m} h, D.Keeps m ((rules depth).destroy h) ((rules depth).destroy h) := by
  induction depth with
  | zero => exact ⟨obeys_zero, fun _ => Keeps.exhausted⟩
  | succ depth ih =>
    obtain ⟨ho, hd⟩ := ih
    have hc : D.Collecting (rules depth) (rules depth) := collecting_of_destroy hd
    exact ⟨(hp.admits hc).obeys ho, fun h => hp.destroyNow hc ho h⟩

end PermitsEnding

end Discipline

end CompositeGraph
