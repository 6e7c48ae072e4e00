/-
  GROWTH: creating composites destroys nothing.

  A composite that is being created is young: it is alive and no entry for it is extra in any list.
  Its slots are set once, from empty, and its type and members only gain links.  Settling the links
  of a young composite lists it, or finds nothing to do; so creation never
  comes to release anything.

    1. YOUNG.      Links that come to a young composite.
    2. SLOTS.      Slots that are still empty, set one after the other.
    3. CREATION.   A fresh composite, and each sort of it.
    4. CHAINS.     Objects for a class and those above it, and declared composites.
-/
import CompositeGraph.Proofs.Reconciliation

namespace CompositeGraph

open Run Discipline Store Composite

/-! ## Young -/

/-- The composite is alive, and no entry for it is extra. -/
structure Young (extra : Store.Edges) (s : Store) (x : Handle) : Prop where
  alive : s.isAlive x = true
  fair : ∀ y, ¬extra x y

/-- The store has grown and is in balance. -/
structure Grown (missing extra : Store.Edges) (X : Handle → Prop) (s t : Store) : Prop where
  balanced : t.Balanced missing extra
  grows : s.Grows X t

section Young

variable {r r' : Rules} {missing extra : Store.Edges} {m : Machine} {x : Handle}
  {X Y : Handle → Prop}
  {s t u : Store}

theorem Young.contains (h : Young extra s x) : s.contains x = true := contains_of_isAlive h.alive

theorem Young.index_lt (h : Young extra s x) : x.index < s.size :=
  index_lt_size_of_contains h.contains

theorem Young.grown (h : Young extra s x) (hg : Grown missing extra X s t) : Young extra t x where
  alive := (hg.grows.alive x h.index_lt).trans h.alive
  fair := h.fair

theorem Grown.trans (h : Grown missing extra X s t) (h' : Grown missing extra Y t u)
    (hY : ∀ k, k.index < s.size → Y k → X k) : Grown missing extra X s u :=
  ⟨h'.balanced, h.grows.trans h'.grows hY⟩

theorem Grown.mono (h : Grown missing extra X s t) (hXY : ∀ k, X k → Y k) :
    Grown missing extra Y s t :=
  ⟨h.balanced, h.grows.mono hXY⟩

/-- Links come to a young composite, and are listed. -/
theorem grow_calm (r r' : Rules) (hb : m.store.Balanced missing extra)
    (hyoung : Young extra m.store x) {c : Composite}
    (hx : m.store.get? x = some c) {f : Composite → Composite} {new : List Handle}
    (hf : c.Exchanges f new []) (hnew : ∀ y ∈ new, y.index < m.store.size) :
    Calm m (do modifyComposite x f; new.forM (retainOrRelease r x))
      (do modifyComposite x f; new.forM (retainOrRelease r' x)) fun _ t =>
        Grown missing extra (· = x) m.store t ∧ t.bare? x = some (f c).bare ∧
          t.size = m.store.size := by
  have hb' : (m.store.modify x f).Balanced (plus missing x new) extra :=
    hb.relink hx (hf.life c) (hf.retainers c) (bounded_exchange hb hx hf hnew) (fun _ _ => Or.inl)
      (fun y hy => (hf.come y hy).imp_right fun h => Or.inr ⟨rfl, h⟩) (fun _ _ => id)
      (fun y hy => Or.inl ((hf.go y hy).resolve_right (by simp)))
  have hg : m.store.Grows (· = x) (m.store.modify x f) := .modify hf.life hf.retainers
  have hself : (m.store.modify x f).bare? x = some (f c).bare :=
    bare?_of_get? (get?_modify_self f hx)
  refine Calm.modifyStore_bind ?_
  have halive : (m.store.modify x f).isAlive x = true :=
    (hg.alive x hyoung.index_lt).trans hyoung.alive
  refine (forM_retainOrRelease_calm hb' halive fun y _ => Or.inr (hyoung.fair y)).mono ?_
  rintro _ t ⟨hbt, hgt, hsize⟩
  refine ⟨⟨hbt, hg.trans hgt fun _ _ h => h.elim⟩, ?_, hsize.trans (size_modify _ _)⟩
  rw [← hself]
  exact hgt.bare? (Nat.lt_of_lt_of_le hyoung.index_lt hg.size)

/-- The same where the links are reconciled with none before. -/
theorem grow_reconcile_calm (hb : m.store.Balanced missing extra) (hyoung : Young extra m.store x)
    {c : Composite} (hx : m.store.get? x = some c) {f : Composite → Composite} {new : List Handle}
    (hf : c.Replaces f new []) (hnew : ∀ y ∈ new, y.index < m.store.size) :
    Calm m (do modifyComposite x f; reconcile r x [] new)
      (do modifyComposite x f; reconcile r' x [] new)
      fun _ t => Grown missing extra (· = x) m.store t ∧ t.bare? x = some (f c).bare ∧
        t.size = m.store.size := by
  have hnone : missingFrom new [] = [] := by simp [missingFrom]
  have h := grow_calm r r' hb hyoung hx (hnone ▸ hf.reconciled.toExchanges)
    fun y hy => hnew y (mem_missingFrom.mp hy).1
  simpa only [reconcile, hnone, List.append_nil] using h

end Young

/-! ## Slots -/

namespace Store

variable {s t : Store} {x : Handle}

/-- The type of a composite. -/
def type? (s : Store) (x : Handle) : Option TypeTree := (s.get? x).map (·.type)

theorem link?_eq_bind_bare? (slot : Slot) : s.link? slot x = (s.bare? x).bind fun c =>
    c.links.get slot := by
  unfold link? bare?
  cases s.get? x with
  | none => rfl
  | some c => simp

theorem type?_eq_map_bare? : s.type? x = (s.bare? x).map (·.type) := by
  unfold type? bare?
  cases s.get? x <;> rfl

theorem link?_of_bare? (h : t.bare? x = s.bare? x) (slot : Slot) :
    t.link? slot x = s.link? slot x := by
  rw [link?_eq_bind_bare?, h, link?_eq_bind_bare?]

theorem type?_of_bare? (h : t.bare? x = s.bare? x) : t.type? x = s.type? x := by
  rw [type?_eq_map_bare?, h, type?_eq_map_bare?]

end Store

/-- The store has grown by setting some slots of a composite. -/
structure Sets (missing extra : Store.Edges) (x : Handle) (slots : List Slot)
    (s t : Store) : Prop extends Grown missing extra (· = x) s t where
  links : ∀ slot, slot ∉ slots → t.link? slot x = s.link? slot x
  type : t.type? x = s.type? x
  size : t.size = s.size

/-- What is known of the composite itself says which slots were set. -/
theorem Sets.of_bare? {missing extra : Store.Edges} {x : Handle} {slots : List Slot} {s t : Store}
    {c d : Composite} (hx : s.get? x = some c)
    (h : Grown missing extra (· = x) s t ∧ t.bare? x = some d.bare ∧ t.size = s.size)
    (links : ∀ slot, slot ∉ slots → d.links.get slot = c.links.get slot)
    (type : d.type = c.type) : Sets missing extra x slots s t where
  toGrown := h.1
  links slot hslot := by
    rw [link?_eq_bind_bare?, h.2.1, link?_eq_bind_bare?, bare?_of_get? hx]
    simp only [Option.bind_some, get_bare]
    exact links slot hslot
  type := by
    rw [type?_eq_map_bare?, h.2.1, type?_eq_map_bare?, bare?_of_get? hx]
    simp only [Option.map_some, type_bare, type]
  size := h.2.2

/-- Some slots of a composite are empty. -/
def Empty (s : Store) (x : Handle) (slots : List Slot) : Prop :=
  ∀ slot ∈ slots, s.link? slot x = none

section Slots

variable {r r' : Rules} {missing extra : Store.Edges} {m : Machine} {x : Handle} {s t u : Store}
  {slots slots' : List Slot}

theorem Sets.refl (hb : s.Balanced missing extra) : Sets missing extra x slots s s :=
  ⟨⟨hb, .refl _ _⟩, fun _ _ => rfl, rfl, rfl⟩

theorem Sets.trans (h : Sets missing extra x slots s t) (h' : Sets missing extra x slots' t u) :
    Sets missing extra x (slots ++ slots') s u where
  toGrown := h.toGrown.trans h'.toGrown fun _ _ h => h
  links slot hslot := by
    obtain ⟨hs, hs'⟩ := not_or.mp fun h => hslot (List.mem_append.mpr h)
    rw [h'.links slot hs', h.links slot hs]
  type := h'.type.trans h.type
  size := h'.size.trans h.size

theorem Empty.sets (h : Empty s x slots) (hs : Sets missing extra x slots' s t)
    (hdisjoint : ∀ slot ∈ slots, slot ∉ slots') : Empty t x slots := by
  intro slot hslot
  rw [hs.links slot (hdisjoint slot hslot)]
  exact h slot hslot

/-- A composite that growth leaves alone has the same slots and type. -/
theorem Grown.link? {X : Handle → Prop} (h : Grown missing extra X s t)
    (hx : x.index < s.size) (hX : ¬X x) (slot : Slot) : t.link? slot x = s.link? slot x :=
  link?_of_bare? (h.grows.others x hx hX) slot

/-- What a composite is as a type is something that may be stored. -/
theorem index_lt_of_selfType? (hb : s.Balanced missing extra) {y : Handle}
    (h : s.selfType? x = some y) : y.index < s.size := by
  obtain ⟨c, hc, hy⟩ := Option.bind_eq_some_iff.mp h
  split at hy
  · have hmem := mem_named_of_type (TypeTree.mem_references_of_inherited? hy)
    exact hb.bounded x _ (bare?_of_get? hc) y hmem
  · cases hy
    exact index_lt_size hc

theorem index_lt_of_link? (hb : s.Balanced missing extra) {slot : Slot} {y : Handle}
    (h : s.link? slot x = some y) : y.index < s.size := by
  obtain ⟨c, hc, hy⟩ := Option.bind_eq_some_iff.mp h
  exact hb.bounded x _ (bare?_of_get? hc) y (mem_named_of_slot hy)

variable (hb : m.store.Balanced missing extra) (hyoung : Young extra m.store x)

include hb hyoung

theorem setSlot_calm {slot : Slot} (hempty : m.store.link? slot x = none) {value : Option Handle}
    (hv : ∀ y, value = some y → y.index < m.store.size) :
    Calm m (setSlot r x slot value) (setSlot r' x slot value) fun _ t =>
      Sets missing extra x [slot] m.store t := by
  obtain ⟨c, hx⟩ := contains_iff.mp hyoung.contains
  have hold : c.links.get slot = none := by simpa [Store.link?, hx] using hempty
  refine Calm.store_bind ?_
  rw [hx]
  dsimp only
  split
  · exact Calm.pure (.refl hb)
  rw [hold]
  have hex : c.Exchanges (fun d => d.setSlot slot value) value.toList [] := by
    have h := exchanges_slot c slot value
    rwa [hold] at h
  have h := (grow_calm r r' hb hyoung hx hex fun y hy => hv y (Option.mem_toList.mp hy)).mono
    fun _ t ht => show Sets missing extra x [slot] m.store t from .of_bare? hx ht
      (fun other ho => Links.get_set_ne _ _ fun h => ho (List.mem_singleton.mpr h)) rfl
  cases value with
  | none => exact h
  | some y => simpa [modifyComposite] using h

/-- Two slots are set, one after the other. -/
theorem setSlots_calm {slot slot' : Slot} (hne : slot' ≠ slot)
    (hempty : Empty m.store x [slot, slot'])
    {value value' : Option Handle} (hv : ∀ y, value = some y → y.index < m.store.size)
    (hv' : ∀ y, value' = some y → y.index < m.store.size) :
    Calm m (do setSlot r x slot value; setSlot r x slot' value')
      (do setSlot r' x slot value; setSlot r' x slot' value') fun _ t =>
        Sets missing extra x [slot, slot'] m.store t := by
  refine (setSlot_calm hb hyoung (hempty slot (by simp)) hv).bind fun _ m₁ _ _ h₁ => ?_
  have hempty₁ : m₁.store.link? slot' x = none := by
    rw [h₁.links slot' (by simpa using hne)]
    exact hempty slot' (by simp)
  refine (setSlot_calm h₁.balanced (hyoung.grown h₁.toGrown) hempty₁ fun y hy => ?_).mono
    fun _ t h₂ => h₁.trans h₂
  exact Nat.lt_of_lt_of_le (hv' y hy) h₁.grows.size

theorem setSelfLevels_calm {level : Handle} (hlevel : level.index < m.store.size)
    (hempty : Empty m.store x [.current, .currentType]) :
    Calm m (setSelfLevels r x level) (setSelfLevels r' x level) fun _ t =>
      Sets missing extra x [.current, .currentType] m.store t := by
  refine Calm.store_bind (setSlots_calm hb hyoung (by decide) hempty ?_ ?_)
  · rintro _ ⟨⟩
    exact hlevel
  · exact fun y hy => index_lt_of_selfType? hb hy

theorem setSuperLevels_calm {above : Option Handle}
    (habove : ∀ y, above = some y → y.index < m.store.size)
    (hempty : Empty m.store x [.super, .superType]) :
    Calm m (setSuperLevels r x above) (setSuperLevels r' x above) fun _ t =>
      Sets missing extra x [.super, .superType] m.store t := by
  refine Calm.store_bind (setSlots_calm hb hyoung (by decide) hempty habove ?_)
  intro y hy
  obtain ⟨_, _, hy⟩ := Option.bind_eq_some_iff.mp hy
  exact index_lt_of_selfType? hb hy

theorem setSubLevels_calm {below : Option Handle}
    (hbelow : ∀ y, below = some y → y.index < m.store.size)
    (hempty : Empty m.store x [.sub, .subType]) :
    Calm m (setSubLevels r x below) (setSubLevels r' x below) fun _ t =>
      Sets missing extra x [.sub, .subType] m.store t := by
  refine Calm.store_bind ?_
  cases below with
  | none => exact Calm.pure (.refl hb)
  | some below =>
    dsimp only
    split
    · refine setSlots_calm hb hyoung (by decide) hempty hbelow ?_
      intro y hy
      obtain ⟨c, hc, hy⟩ := Option.bind_eq_some_iff.mp hy
      have hmem := mem_named_of_type (TypeTree.mem_references_of_inherited? hy)
      exact hb.bounded below _ (bare?_of_get? hc) y hmem
    · exact Calm.pure (.refl hb)

/-- Slots copied from another composite one after the other. -/
theorem copySlots_calm (source : Handle) {slots : List Slot} (hdistinct : slots.Nodup)
    (hempty : Empty m.store x slots) :
    Calm m (slots.forM fun slot => do
      let value := (← store).link? slot source; setSlot r x slot value)
      (slots.forM fun slot => do let value := (← store).link? slot source; setSlot r' x slot value)
      fun _ t => Sets missing extra x slots m.store t := by
  induction slots generalizing m with
  | nil => exact Calm.pure (.refl hb)
  | cons slot slots ih =>
    obtain ⟨hnew, hrest⟩ := List.nodup_cons.mp hdistinct
    refine Calm.bind (Calm.store_bind (setSlot_calm hb hyoung (hempty slot List.mem_cons_self) ?_))
      fun _ m₁ _ _ h₁ => ?_
    · exact fun y hy => index_lt_of_link? hb hy
    · have hempty₁ : Empty m₁.store x slots := by
        refine Empty.sets (fun s hs => hempty s (List.mem_cons_of_mem _ hs)) h₁
          fun s hs h => hnew ?_
        rwa [List.mem_singleton.mp h] at hs
      exact (ih h₁.balanced (hyoung.grown h₁.toGrown) hrest hempty₁).mono fun _ t h₂ => h₁.trans h₂

theorem setInheritedLevels_calm (source : Handle) (hempty : Empty m.store x Slot.levels) :
    Calm m (setInheritedLevels r x source) (setInheritedLevels r' x source) fun _ t =>
      Sets missing extra x Slot.levels m.store t := by
  unfold setInheritedLevels
  split
  · exact copySlots_calm hb hyoung source (by decide) hempty
  · exact Calm.pure (.refl hb)

end Slots

/-! ## Creation -/

namespace Composite

@[simp] theorem references_fresh (title : Option String) (type : TypeTree) :
    (fresh title type).references = type.references := by
  have hslots : retainingSlots.filterMap (fresh title type).links.get = [] := rfl
  have hmembers : memberReferences (fresh title type).members = [] := rfl
  have himports : (fresh title type).imports.values = [] := rfl
  rw [references, hslots, hmembers, himports]
  simp [fresh]

theorem isAlive_fresh (title : Option String) (type : TypeTree) :
    (fresh title type).isAlive = true := by
  unfold fresh isAlive
  dsimp only
  split <;> rfl

end Composite

/-- A living composite was added. -/
theorem Store.Grows.add {s : Store} {c : Composite} (halive : c.isAlive = true)
    (hretainers : c.links.retainers = []) : s.Grows (fun _ => False) (s.add c).1 := by
  have hold : ∀ h : Handle, h.index < s.size → (s.add c).1.get? h = s.get? h := by
    intro h hh
    refine get?_add_ne c ?_
    rintro rfl
    exact absurd hh (by simp [Store.next])
  refine ⟨by simp, ?_, ?_, ?_, ?_⟩
  · intro h hh _
    rw [Store.bare?, hold h hh]
    rfl
  · intro h hh
    rw [Store.isAlive, hold h hh]
    rfl
  · intro h
    by_cases hn : h = s.next
    · rw [hn, Store.isDying, get?_add_self, Store.isDying, get?_next]
      simp [halive]
    · rw [Store.isDying, get?_add_ne c hn]
      rfl
  · intro d b hd
    by_cases hn : b = s.next
    · rw [hn, retainers_of_get? (get?_add_self c), hretainers] at hd
      cases hd
    · rw [Store.retainers, get?_add_ne c hn] at hd
      exact Or.inl hd

/-- A composite was created: it is new, alive, of a known type, and all slots but
    some are still empty. -/
structure Created (missing extra : Store.Edges) (s : Store) (type : TypeTree)
    (filled : List Slot) (x : Handle)
    (t : Store) : Prop extends Grown missing extra (fun _ => False) s t where
  next : x = s.next
  alive : t.isAlive x = true
  type : t.type? x = some type
  empty : ∀ slot, slot ∉ filled → t.link? slot x = none
  size : t.size = s.size + 1

section Creation

variable {r r' : Rules} {missing extra : Store.Edges} {m : Machine} {x : Handle} {s t u : Store}
  {type : TypeTree} {filled filled' slots : List Slot}

theorem Created.young (h : Created missing extra s type filled x t)
    (hextra : ∀ a b, extra a b → a.index < s.size) : Young extra t x where
  alive := h.alive
  fair y hy := by
    have hlt := hextra x y hy
    rw [h.next] at hlt
    exact absurd hlt (by simp [Store.next])

theorem Created.index_lt (h : Created missing extra s type filled x t) : x.index < t.size :=
  index_lt_size_of_contains (contains_of_isAlive h.alive)

theorem Created.mono (h : Created missing extra s type filled x t)
    (hsub : ∀ slot ∈ filled, slot ∈ filled') : Created missing extra s type filled' x t :=
  { h with empty := fun slot hslot => h.empty slot fun hmem => hslot (hsub slot hmem) }

/-- What is done to a new composite is done to none that was there before. -/
theorem Created.grown (h : Created missing extra s type filled x t)
    (h' : Grown missing extra (· = x) t u) : Grown missing extra (fun _ => False) s u := by
  refine h.toGrown.trans h' ?_
  rintro k hk rfl
  rw [h.next] at hk
  exact absurd hk (by simp [Store.next])

theorem Created.sets (h : Created missing extra s type filled x t)
    (h' : Sets missing extra x slots t u) : Created missing extra s type (filled ++ slots) x u where
  toGrown := h.grown h'.toGrown
  next := h.next
  alive := (h'.grows.alive x h.index_lt).trans h.alive
  type := h'.type.trans h.type
  empty slot hslot := by
    obtain ⟨hfilled, hslots⟩ := not_or.mp fun h => hslot (List.mem_append.mpr h)
    rw [h'.links slot hslots]
    exact h.empty slot hfilled
  size := h'.size.trans h.size

/-- A composite as it is put into the store: what its type refers to does not list it yet. -/
theorem created_add (title : Option String) (hb : s.Balanced missing extra)
    (htype : ∀ y ∈ type.references, y.index < s.size) :
    Created (plus missing s.next type.references) extra s type [] s.next
      (s.add (Composite.fresh title type)).1 := by
  have hself := get?_add_self (s := s) (Composite.fresh title type)
  have halive := isAlive_fresh title type
  refine ⟨⟨hb.add rfl ?_ (fun _ _ => Or.inl) ?_, .add halive rfl⟩, rfl,
    isAlive_iff.mpr ⟨_, hself, halive⟩, ?_, ?_, size_add _⟩
  · intro y hy
    rw [Composite.named, references_fresh] at hy
    rcases List.mem_append.mp hy with hy | hy
    · exact htype y hy
    · cases hy
  · intro y hy
    rw [references_fresh] at hy
    exact Or.inr ⟨rfl, hy⟩
  · rw [Store.type?, hself]
    rfl
  · intro slot _
    rw [Store.link?, hself]
    cases slot <;> rfl

/-- Once what its type refers to lists it, nothing is missing. -/
theorem Created.settle {missing' : Store.Edges} (h : Created missing' extra s type filled x t)
    (hb : u.Balanced missing extra) (hg : t.Grows (fun _ => False) u) (hsize : u.size = t.size) :
    Created missing extra s type filled x u where
  balanced := hb
  grows := h.grows.trans hg fun _ _ h => h
  next := h.next
  alive := (hg.alive x h.index_lt).trans h.alive
  type := (type?_of_bare? (hg.bare? h.index_lt)).trans h.type
  empty slot hslot := (link?_of_bare? (hg.bare? h.index_lt) slot).trans (h.empty slot hslot)
  size := hsize.trans h.size

/-- Something about a young composite is changed that no link depends on. -/
theorem modify_calm (hb : m.store.Balanced missing extra) (hyoung : Young extra m.store x)
    {f : Composite → Composite} (life : ∀ d, (f d).isAlive = d.isAlive)
    (links : ∀ d, (f d).links = d.links)
    (references : ∀ d, (f d).references = d.references) (type : ∀ d, (f d).type = d.type) :
    Calm m (modifyComposite x f) (modifyComposite x f) fun _ t =>
      Sets missing extra x [] m.store t := by
  obtain ⟨c, hx⟩ := contains_iff.mp hyoung.contains
  -- No link comes, so whatever the rules are, there is nothing to settle.
  have h : Calm m (modifyComposite x f) (modifyComposite x f) _ :=
    grow_calm (rules 0) (rules 0) hb hyoung hx (.of_same c life links (references c)) (by simp)
  exact h.mono fun _ t ht => .of_bare? hx ht (fun slot _ => by rw [links]) (type c)

variable (hb : m.store.Balanced missing extra) (hextra : ∀ a b, extra a b → a.index < m.store.size)

include hb hextra

section Scoped

variable {scope : Option Handle} (hscope : ∀ y, scope = some y → y.index < m.store.size)

include hscope

variable (title : Option String)

theorem createComposite_calm (htype : ∀ y ∈ type.references, y.index < m.store.size) :
    Calm m (createComposite r title type scope) (createComposite r' title type scope)
      (Created missing extra m.store type [.scope]) := by
  have hcreated := created_add title hb htype
  have hlist : ∀ m₁ : Machine,
      Created (plus missing m.store.next type.references) extra m.store type [.scope]
      m.store.next m₁.store →
      Calm m₁ (do type.references.forM (retainOrRelease r m.store.next); return m.store.next)
        (do type.references.forM (retainOrRelease r' m.store.next); return m.store.next)
        (Created missing extra m.store type [.scope]) := by
    intro m₁ h₁
    refine Calm.bind (forM_retainOrRelease_calm h₁.balanced h₁.alive fun y _ =>
      Or.inr ((h₁.young hextra).fair y))
      fun _ m₂ _ _ h₂ => Calm.pure ?_
    exact h₁.settle h₂.1 h₂.2.1 h₂.2.2
  refine Calm.bind (Q := fun h t =>
    h = m.store.next ∧ t = (m.store.add (Composite.fresh title type)).1)
    (Agree.of_eq rfl ⟨rfl, rfl, rfl, rfl⟩) ?_
  rintro _ m₁ _ _ ⟨rfl, hstore⟩
  rw [← hstore] at hcreated
  dsimp only
  split
  · refine Calm.bind (setSlot_calm hcreated.balanced (hcreated.young hextra)
      (hcreated.empty .scope (by simp)) ?_) fun _ m₂ _ _ h₂ => hlist m₂ (hcreated.sets h₂)
    exact fun y hy => Nat.lt_of_lt_of_le (hscope y hy) hcreated.grows.size
  · exact hlist m₁ (hcreated.mono (by simp))

theorem createSelfLeveled_calm (kind : Kind) :
    Calm m (createSelfLeveled r title kind scope) (createSelfLeveled r' title kind scope)
      (Created missing extra m.store (.ofKind kind) [.scope, .current, .currentType]) := by
  refine (createComposite_calm hb hextra hscope title (by simp)).bind fun x m₁ _ _ h₁ => ?_
  refine (setSelfLevels_calm h₁.balanced (h₁.young hextra) h₁.index_lt ?_).bind
    fun _ m₂ _ _ h₂ => ?_
  · exact fun slot hslot => h₁.empty slot (by revert slot; decide)
  · exact Calm.pure (h₁.sets h₂)

theorem createFunction_calm (statements : Statements) :
    Calm m (createFunction r title statements scope) (createFunction r' title statements scope)
      (Created missing extra m.store (.ofKind .function) Slot.all) := by
  refine (createComposite_calm hb hextra hscope title (by simp)).bind fun x m₁ _ _ h₁ => ?_
  refine Calm.bind (modify_calm h₁.balanced (h₁.young hextra) (fun _ => rfl) (fun _ => rfl)
    (fun _ => rfl) fun _ => rfl) fun _ m₂ _ _ h₂ => ?_
  have hcreated := h₁.sets h₂
  cases scope with
  | none => exact Calm.pure (hcreated.mono (by decide))
  | some scope =>
    refine Calm.bind (setInheritedLevels_calm hcreated.balanced (hcreated.young hextra) scope ?_)
      fun _ m₃ _ _ h₃ => Calm.pure ((hcreated.sets h₃).mono (by decide))
    exact fun slot hslot => hcreated.empty slot (by revert slot; decide)

theorem createNamespace_calm (levels : Levels) :
    Calm m (createNamespace r title scope levels) (createNamespace r' title scope levels)
      (Created missing extra m.store (.ofKind .namespace) Slot.all) := by
  refine (createComposite_calm hb hextra hscope title (by simp)).bind fun x m₁ _ _ h₁ => ?_
  have hyoung := h₁.young hextra
  cases levels with
  | own =>
    refine (setSelfLevels_calm h₁.balanced hyoung h₁.index_lt ?_).bind fun _ m₂ _ _ h₂ =>
      Calm.pure ((h₁.sets h₂).mono (by decide))
    exact fun slot hslot => h₁.empty slot (by revert slot; decide)
  | copied source =>
    refine (setInheritedLevels_calm h₁.balanced hyoung source ?_).bind fun _ m₂ _ _ h₂ =>
      Calm.pure ((h₁.sets h₂).mono (by decide))
    exact fun slot hslot => h₁.empty slot (by revert slot; decide)
  | missing => exact Calm.pure (h₁.mono (by decide))

end Scoped

/-! ## Chains -/

/-- The slots of an object that has no object above it. -/
def lowest : List Slot := [.scope, .current, .currentType, .sub, .subType]

omit hb hextra in
/-- The type of an object refers to its class. -/
theorem index_lt_of_mem_objectType {classHandle : Handle} (hclass : classHandle.index < s.size) :
    ∀ y ∈ (objectType classHandle).references, y.index < s.size := by
  intro y hy
  cases List.mem_singleton.mp (show y ∈ [classHandle] from hy)
  exact hclass

theorem createObject_calm {above below : Option Handle} {classHandle : Handle}
    (habove : ∀ y, above = some y → y.index < m.store.size)
    (hclass : classHandle.index < m.store.size)
    (hbelow : ∀ y, below = some y → y.index < m.store.size) :
    Calm m (createObject r above classHandle below) (createObject r' above classHandle below)
      (Created missing extra m.store (objectType classHandle)
        (if above.isSome then Slot.all else lowest)) := by
  have hrest : ∀ (x : Handle) (filled : List Slot) (m₁ : Machine),
      (∀ slot ∈ [Slot.current, .currentType, .sub, .subType], slot ∉ filled) →
      Created missing extra m.store (objectType classHandle) filled x m₁.store →
      Calm m₁ (do setSelfLevels r x x; setSubLevels r x below; return x)
        (do setSelfLevels r' x x; setSubLevels r' x below; return x)
        (Created missing extra m.store (objectType classHandle)
          (filled ++ [.current, .currentType] ++ [.sub, .subType])) := by
    intro x filled m₁ hfilled h₁
    refine (setSelfLevels_calm h₁.balanced (h₁.young hextra) h₁.index_lt ?_).bind
      fun _ m₂ _ _ h₂ => ?_
    · exact fun slot hslot => h₁.empty slot (hfilled slot (by revert slot; decide))
    have hcreated := h₁.sets h₂
    refine (setSubLevels_calm hcreated.balanced (hcreated.young hextra) ?_ ?_).bind
      fun _ m₃ _ _ h₃ => ?_
    · exact fun y hy => Nat.lt_of_lt_of_le (hbelow y hy) hcreated.grows.size
    · intro slot hslot
      refine hcreated.empty slot ?_
      rw [List.mem_append, not_or]
      exact ⟨hfilled slot (by revert slot; decide), by revert slot; decide⟩
    · exact Calm.pure (hcreated.sets h₃)
  refine Calm.get_bind
    (Calm.bind (createComposite_calm hb hextra ?_ _ (index_lt_of_mem_objectType hclass))
    fun x m₁ _ _ h₁ => ?_)
  · rintro _ ⟨⟩
    exact hclass
  dsimp only
  split
  · refine (setSuperLevels_calm h₁.balanced (h₁.young hextra) ?_ ?_).bind fun _ m₂ _ _ h₂ => ?_
    · exact fun y hy => Nat.lt_of_lt_of_le (habove y hy) h₁.grows.size
    · exact fun slot hslot => h₁.empty slot (by revert slot; decide)
    · exact (hrest x _ m₂ (by decide) (h₁.sets h₂)).mono fun _ _ h => h.mono (by decide)
  · exact (hrest x _ m₁ (by decide) h₁).mono fun _ _ h => h.mono (by decide)

omit hextra in
/-- An overload is put where none was. -/
theorem setMember_calm (hyoung : Young extra m.store x) {c : Composite}
    (hx : m.store.get? x = some c) {name : String} {overload : Overload} (placement : Placement)
    {index : Option Nat} {placed : List Overload} (htarget : placement.target x = (x, index))
    (hplace : placeOverload overload index ((c.members.get? name).getD []) = (none, placed))
    (hrefs : ∀ y ∈ overload.references, y.index < m.store.size) :
    Calm m (setMember r x name overload placement) (setMember r' x name overload placement)
      fun _ t => Grown missing extra (· = x) m.store t ∧
        t.bare? x = some { c with members := c.members.put name placed }.bare ∧
          t.size = m.store.size := by
  cases placement
  all_goals
    cases htarget
    refine Calm.store_bind ?_
    dsimp only [Placement.target]
    rw [hx]
    dsimp only
    rw [hplace, ← bind_assoc, ← bind_assoc]
    exact Calm.bind (grow_reconcile_calm hb hyoung hx (replaces_member c hplace) hrefs)
      fun _ _ _ _ h => Calm.pure h

omit hextra in
/-- A member of a young composite gets one more overload. -/
theorem bindName_calm (hyoung : Young extra m.store x) (name : String)
    {type : TypeTree} {value : Option Value}
    (hrefs : ∀ y ∈ ({ type, value } : Overload).references, y.index < m.store.size) :
    Calm m (bindName r x name type value) (bindName r' x name type value) fun _ t =>
      Sets missing extra x [] m.store t := by
  obtain ⟨c, hx⟩ := contains_iff.mp hyoung.contains
  refine Calm.bind (setMember_calm hb hyoung hx .append rfl rfl hrefs)
    fun _ _ _ _ h => Calm.pure ?_
  exact .of_bare? hx h (fun _ _ => rfl) rfl

omit hextra in
theorem bindGenerics_calm (hyoung : Young extra m.store x)
    (classHandle : Handle) (generics : List TypeTree) :
    Calm m (bindGenerics r x classHandle generics) (bindGenerics r' x classHandle generics)
      fun _ t => Sets missing extra x [] m.store t := by
  refine Calm.store_bind ?_
  dsimp only
  generalize (((m.store.get? classHandle).map fun c => c.type.genericParameters).getD []).zip
    generics = pairs
  induction pairs generalizing m with
  | nil => exact Calm.pure ⟨⟨hb, .refl _ _⟩, fun _ _ => rfl, rfl, rfl⟩
  | cons pair pairs ih =>
    refine Calm.bind (Q := fun _ t => Sets missing extra x [] m.store t) ?_ fun _ m₁ _ _ h₁ =>
      (ih h₁.balanced (hyoung.grown h₁.toGrown)).mono fun _ t h₂ => h₁.trans h₂
    dsimp only
    split
    · exact bindName_calm hb hyoung _ fun _ h => absurd h List.not_mem_nil
    · exact Calm.pure ⟨⟨hb, .refl _ _⟩, fun _ _ => rfl, rfl, rfl⟩

omit hb hextra in
/-- A chain of objects changes only the object that it is put above. -/
theorem buildChain_calm (generics : List TypeTree) (steps : Nat) (visited : List Handle)
    {derived level : Option Handle} (hb : m.store.Balanced missing extra)
    (hextra : ∀ a b, extra a b → a.index < m.store.size)
    (hderived : ∀ d, derived = some d → Young extra m.store d ∧
      Empty m.store d [.super, .superType])
    (hlevel : ∀ y, level = some y → y.index < m.store.size) :
    Calm m (buildChain r generics steps visited derived level)
      (buildChain r' generics steps visited derived level)
      fun a t => Grown missing extra (fun k => derived = some k) m.store t ∧ ∀ y,
        a = some y → y.index < t.size := by
  induction steps generalizing m visited derived level with
  | zero => exact Calm.pure ⟨⟨hb, .refl _ _⟩, by simp⟩
  | succ steps ih =>
    cases level with
    | none => exact Calm.pure ⟨⟨hb, .refl _ _⟩, by simp⟩
    | some level =>
      refine Calm.store_bind ?_
      dsimp only
      split
      · exact Calm.pure ⟨⟨hb, .refl _ _⟩, by simp⟩
      refine Calm.bind (createObject_calm hb hextra (by simp) (hlevel level rfl)
        fun d hd => (hderived d hd).1.index_lt) fun object m₁ _ _ h₁ => ?_
      have hrest : ∀ m₂ : Machine,
        Grown missing extra (fun k => derived = some k) m.store m₂.store →
          Young extra m₂.store object → Empty m₂.store object [.super, .superType] →
          Calm m₂ (do
              let above := ((← store).get? level).bind fun composite => composite.type.inherited?
              let _ ← buildChain r generics steps (level :: visited) (some object) above
              return some object)
            (do
              let above := ((← store).get? level).bind fun composite => composite.type.inherited?
              let _ ← buildChain r' generics steps (level :: visited) (some object) above
              return some object)
            fun a t => Grown missing extra (fun k => derived = some k) m.store t ∧
              ∀ y, a = some y → y.index < t.size := by
        intro m₂ h₂ hyoung hempty
        refine Calm.store_bind (Calm.bind (ih _ h₂.balanced
          (fun a b h => Nat.lt_of_lt_of_le (hextra a b h) h₂.grows.size) ?_ ?_) fun _ m₃ _ _ h₃ =>
            Calm.pure ?_)
        · rintro _ ⟨⟩
          exact ⟨hyoung, hempty⟩
        · intro y hy
          obtain ⟨c, hc, hy⟩ := Option.bind_eq_some_iff.mp hy
          have hmem := mem_named_of_type (TypeTree.mem_references_of_inherited? hy)
          exact h₂.balanced.bounded level _ (bare?_of_get? hc) y hmem
        · refine ⟨h₂.trans h₃.1 ?_, ?_⟩
          · rintro k hk ⟨⟩
            rw [h₁.next] at hk
            exact absurd hk (by simp [Store.next])
          · rintro _ ⟨⟩
            exact Nat.lt_of_lt_of_le hyoung.index_lt h₃.1.grows.size
      have hyoung := h₁.young hextra
      cases derived with
      | none =>
        -- The first object gets the generic arguments.
        refine (bindGenerics_calm h₁.balanced hyoung level generics).bind fun _ m₂ _ _ h₂ => ?_
        have hcreated := h₁.sets h₂
        refine hrest m₂ (hcreated.toGrown.mono fun _ h => h.elim) (hyoung.grown h₂.toGrown) ?_
        exact fun slot hslot => hcreated.empty slot (by revert slot; decide)
      | some d =>
        obtain ⟨hd, hempty⟩ := hderived d rfl
        have hne : object ≠ d := by
          rintro rfl
          have hlt := hd.index_lt
          rw [h₁.next] at hlt
          exact absurd hlt (by simp [Store.next])
        refine (setSuperLevels_calm h₁.balanced (hd.grown h₁.toGrown) ?_ ?_).bind
          fun _ m₂ _ _ h₂ => ?_
        · rintro _ ⟨⟩
          exact h₁.index_lt
        · intro slot hslot
          rw [h₁.toGrown.link? hd.index_lt id]
          exact hempty slot hslot
        · refine hrest m₂ ?_ (hyoung.grown h₂.toGrown) ?_
          · exact (h₁.toGrown.mono fun _ h => h.elim).trans h₂.toGrown fun _ _ h =>
              congrArg some h.symm
          · intro slot hslot
            rw [h₂.toGrown.link? h₁.index_lt hne]
            exact h₁.empty slot (by revert slot; decide)

end Creation

/-! ## Declared composites -/

section Declared

variable {r r' : Rules} {missing extra : Store.Edges} {m : Machine} {x : Handle} {type : TypeTree}

/-- A young composite whose type refers to nothing gets another type. -/
theorem setType_calm (hb : m.store.Balanced missing extra)
    (hyoung : Young extra m.store x) {old : TypeTree}
    (hold : m.store.type? x = some old) (hnone : old.references = [])
    (htype : ∀ y ∈ type.references, y.index < m.store.size) :
    Calm m (setType r x type) (setType r' x type) fun _ t =>
      Grown missing extra (· = x) m.store t ∧ t.size = m.store.size ∧
        ∀ slot, t.link? slot x = m.store.link? slot x := by
  obtain ⟨c, hx⟩ := contains_iff.mp hyoung.contains
  have hc : c.type = old := by simpa [Store.type?, hx] using hold
  have hf : c.Replaces (fun d => { d with type }) type.references [] := by
    have h := replaces_type c type
    rwa [hc, hnone] at h
  refine Calm.store_bind ?_
  rw [hx]
  dsimp only
  rw [hc, hnone]
  refine (grow_reconcile_calm hb hyoung hx hf htype).mono ?_
  rintro _ t ⟨hg, hbare, hsize⟩
  refine ⟨hg, hsize, fun slot => ?_⟩
  rw [link?_eq_bind_bare?, hbare, link?_eq_bind_bare?, bare?_of_get? hx]
  simp only [Option.bind_some, get_bare]

/-- Reading the type of a declared composite. -/
theorem declaredType_calm (hm : (balance missing extra).Fits m)
    (htype : ∀ y ∈ type.references, y.index < m.store.size) (scope : Handle)
    (parts : CompositeParts Node) :
    Calm m (declaredType scope type parts) (declaredType scope type parts) fun type t =>
      t = m.store ∧ ∀ y ∈ type.references, y.index < t.size := by
  have hgives : Gives m.lookup (declaredType scope type parts) (type.Continues m.lookup) :=
    declaredType_gives parts
  obtain ⟨t, reports, hrun, -, hrefers⟩ := hgives m rfl
  exact Agree.of_eq hrun ⟨rfl, rfl, rfl, fun y hy =>
    (hrefers y hy).elim (htype y) (known_of_offers hm)⟩

theorem createDeclared_calm (hm : (balance missing extra).Fits m)
    (hextra : ∀ a b, extra a b → a.index < m.store.size) (kind : Kind) (identifier : Option String)
    (parts : CompositeParts Node) {scope : Handle} (hscope : scope.index < m.store.size) :
    Calm m (createDeclared r kind identifier parts scope)
      (createDeclared r' kind identifier parts scope)
      fun x t => Grown missing extra (fun _ => False) m.store t ∧ x.index < t.size := by
  have hb : m.store.Balanced missing extra := hm.holds
  refine Calm.bind (createSelfLeveled_calm hb hextra (by rintro _ ⟨⟩; exact hscope) identifier kind)
    fun x m₁ hs₁ hc₁ h₁ => Calm.store_bind ?_
  have hyoung := h₁.young hextra
  have hown : (((m₁.store.get? x).map (·.type)).getD .empty) = .ofKind kind := by
    have h := h₁.type
    unfold Store.type? at h
    rw [h]
    rfl
  rw [hown]
  refine (declaredType_calm (hm.rebalance h₁.balanced h₁.grows.size hc₁) (by simp)
    scope parts).bind ?_
  rintro type m₂ hs₂ hc₂ ⟨hstore, htype⟩
  rw [hstore] at htype
  rw [← hstore] at h₁ hyoung htype
  refine (setType_calm h₁.balanced hyoung h₁.type (by simp) htype).bind ?_
  rintro _ m₃ hs₃ hc₃ ⟨h₃, -, hlinks⟩
  have hstatements : ∀ m₄ : Machine, Grown missing extra (· = x) m₂.store m₄.store →
      Calm m₄ (do
          if kind.instantiable then
            modifyComposite x fun target =>
              { target with statements := .block (objectStatements (bodyStatements parts.body)) }
          return x)
        (do
          if kind.instantiable then
            modifyComposite x fun target =>
              { target with statements := .block (objectStatements (bodyStatements parts.body)) }
          return x)
        fun x t => Grown missing extra (fun _ => False) m.store t ∧ x.index < t.size := by
    intro m₄ h₄
    have hyoung₄ := hyoung.grown h₄
    dsimp only
    split
    · refine Calm.bind (modify_calm h₄.balanced hyoung₄ (fun _ => rfl) (fun _ => rfl) (fun _ => rfl)
        fun _ => rfl) fun _ m₅ _ _ h₅ =>
          Calm.pure ⟨h₁.grown (h₄.trans h₅.toGrown fun _ _ h => h), ?_⟩
      exact (hyoung₄.grown h₅.toGrown).index_lt
    · exact Calm.pure ⟨h₁.grown h₄, hyoung₄.index_lt⟩
  dsimp only
  split
  · refine (setSuperLevels_calm h₃.balanced (hyoung.grown h₃) ?_ ?_).bind fun _ m₄ _ _ h₄ =>
      hstatements m₄ (h₃.trans h₄.toGrown fun _ _ h => h)
    · intro y hy
      exact Nat.lt_of_lt_of_le (htype y (TypeTree.mem_references_of_inherited? hy)) h₃.grows.size
    · intro slot hslot
      rw [hlinks slot]
      exact h₁.empty slot (by revert slot; decide)
  · exact hstatements m₃ h₃

end Declared

/-! ## Balance -/

section Balance

variable {r r' : Rules} {missing extra : Store.Edges} {m : Machine}

/-- An entry can be extra only for a composite that is there, so none is for those still to come. -/
theorem keeps_of_calm {α : Type} [Held α] {x y : Run α}
    (h : ∀ extra', (∀ a b, extra' a b → a.index < m.store.size) → (balance missing extra').Fits m →
      Calm m x y fun a t => (∃ X, Grown missing extra' X m.store t) ∧
        (balance missing extra).Knows t a) :
    (balance missing extra).Keeps m x y := by
  intro hm
  have hb : m.store.Balanced missing fun a b => extra a b ∧ a.index < m.store.size := by
    refine hm.holds.strengthen (fun _ _ h _ _ => Or.inl h) fun a b h _ hmem _ => ⟨h, ?_⟩
    exact index_lt_size_of_contains (hm.holds.linked a b hmem).2.1
  refine (h _ (fun _ _ h => h.2) (hm.rebalance hb (Nat.le_refl _) rfl)).agrees ?_
  rintro a m' hs hc ⟨⟨X, hg⟩, hknows⟩
  exact ⟨hg.balanced.mono (fun _ _ => id) fun _ _ h => h.1, hg.grows.follows, hs,
    hc, hknows, trivial⟩

theorem index_lt_of_knows {s : Store} {o : Option Handle} (h : (balance missing extra).Knows s o) :
    ∀ y, o = some y → y.index < s.size := by
  rintro y rfl
  exact knows_handle.mp h

/-- A composite was created, whatever the rules. -/
theorem keeps_of_created {x y : Run Handle} {type : TypeTree} {filled : List Slot}
    (h : ∀ extra', (∀ a b, extra' a b → a.index < m.store.size) → m.store.Balanced missing extra' →
      Calm m x y (Created missing extra' m.store type filled)) :
        (balance missing extra).Keeps m x y :=
  keeps_of_calm fun extra' hextra hm => (h extra' hextra hm.holds).mono fun _ _ hc =>
    ⟨⟨_, hc.toGrown⟩, knows_handle.mpr hc.index_lt⟩

section Scoped

variable {scope : Option Handle} (hscope : (balance missing extra).Knows m.store scope)

include hscope

theorem createFunction_keeps (title : Option String) (statements : Statements) :
    (balance missing extra).Keeps m (createFunction r title statements scope)
      (createFunction r' title statements scope) :=
  keeps_of_created fun _ hextra hb =>
    createFunction_calm hb hextra (index_lt_of_knows hscope) title statements

theorem createNamespace_keeps (title : Option String) (levels : Levels) :
    (balance missing extra).Keeps m (createNamespace r title scope levels)
      (createNamespace r' title scope levels) :=
  keeps_of_created fun _ hextra hb =>
    createNamespace_calm hb hextra (index_lt_of_knows hscope) title levels

theorem createSelfLeveled_keeps (title : Option String) (kind : Kind) :
    (balance missing extra).Keeps m (createSelfLeveled r title kind scope)
      (createSelfLeveled r' title kind scope) :=
  keeps_of_created fun _ hextra hb =>
    createSelfLeveled_calm hb hextra (index_lt_of_knows hscope) title kind

theorem createComposite_keeps (title : Option String) {type : TypeTree}
    (htype : ∀ y ∈ type.references, y.index < m.store.size) :
    (balance missing extra).Keeps m (createComposite r title type scope)
    (createComposite r' title type scope) :=
  keeps_of_created fun _ hextra hb =>
    createComposite_calm hb hextra (index_lt_of_knows hscope) title htype

end Scoped

theorem createObject_keeps {above below : Option Handle} {classHandle : Handle}
    (habove : (balance missing extra).Knows m.store above)
    (hclass : classHandle.index < m.store.size)
    (hbelow : (balance missing extra).Knows m.store below) :
    (balance missing extra).Keeps m (createObject r above classHandle below)
      (createObject r' above classHandle below) :=
  keeps_of_created fun _ hextra hb =>
    createObject_calm hb hextra (index_lt_of_knows habove) hclass (index_lt_of_knows hbelow)

theorem createDeclared_keeps (kind : Kind) (identifier : Option String)
    (parts : CompositeParts Node) {scope : Handle} (hscope : scope.index < m.store.size) :
    (balance missing extra).Keeps m (createDeclared r kind identifier parts scope)
      (createDeclared r' kind identifier parts scope) :=
  keeps_of_calm fun _ hextra hm => (createDeclared_calm hm hextra kind identifier parts hscope).mono
    fun _ _ h => ⟨⟨_, h.1⟩, knows_handle.mpr h.2⟩

theorem initializerObject_keeps (scope : Handle) {classHandle : Handle} (generics : List TypeTree)
    (hclass : classHandle.index < m.store.size) :
    (balance missing extra).Keeps m (initializerObject r scope classHandle generics)
      (initializerObject r' scope classHandle generics) := by
  refine Keeps.get_bind ?_
  dsimp only
  split
  · rename_i object hobject
    have hknown : (balance missing extra).Knows m.store (some object) := by
      rw [← hobject]
      split
      · exact knows_delegated?
      · exact knows_none
    exact Keeps.pure hknown
  · refine Keeps.store_bind (keeps_of_calm fun _ hextra hm => ?_)
    refine (buildChain_calm generics _ [] hm.holds hextra (by simp)
      (by rintro _ ⟨⟩; exact hclass)).mono ?_
    rintro a t ⟨hg, hknown⟩
    exact ⟨⟨_, hg⟩, knows_option.mpr fun y hy => knows_handle.mpr (hknown y hy)⟩

end Balance

end CompositeGraph
