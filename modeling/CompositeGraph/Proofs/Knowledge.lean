/-
  KNOWLEDGE: nothing that is read out of a machine is new to its store.

  A handle that may be stored is in the store, stands in a composite of the store, or was handed in.
  Reading takes no handle from anywhere else, whatever path it goes: through dictionaries, the parts
  of types, the slots of composites and their chains.  Types come from the store
  too, or are built anew.

    1. VALUES.      Dictionaries, and the composite that a value names.
    2. TYPES.       A subtype refers to nothing new and is as sound as the type.
    3. COMPOSITES.  Slots, members and imports.
    4. LOOKUP.      `find?` and what is planned from it.
    5. READING.     Types and signatures as a program writes them.
-/
import CompositeGraph.Proofs.Discipline
import CompositeGraph.Proofs.Filling

namespace CompositeGraph

/-! ## Values -/

namespace Discipline

variable {D : Discipline} {s : Store}

/-- A value is known by the composites and the types inside it. -/
theorem knows_value {v : Value} :
    D.Knows s v ↔ (∀ h ∈ v.handles, D.known s h) ∧ ∀ type ∈ v.types, D.strict → type.Sound := by
  show (∀ x ∈ v.handles.map Leaf.handle ++ v.types.map Leaf.type, D.Allows s x) ↔ _
  rw [List.forall_mem_append, List.forall_mem_map, List.forall_mem_map]
  exact Iff.rfl

theorem knows_optionValue {o : Option Value} :
    D.Knows s o ↔ (∀ h ∈ Value.optionHandles o, D.known s h) ∧ ∀ type ∈ Value.optionTypes o,
      D.strict → type.Sound := by
  cases o with
  | none => simp [Value.optionHandles, Value.optionTypes]
  | some v => rw [knows_some, knows_value, Value.optionHandles, Value.optionTypes]

/-- A dictionary is known if its keys and its values are. -/
theorem knows_dictionary {entries : Dictionary} :
    D.Knows s (Value.dictionary entries) ↔ D.Knows s entries := by
  rw [knows_value, Value.handles, Value.types]
  induction entries with
  | nil => simp [Value.entryHandles, Value.entryTypes]
  | cons entry rest ih =>
    rw [knows_cons, ← ih, knows_prod, knows_value, knows_optionValue,
      Value.entryHandles, Value.entryTypes]
    simp only [List.forall_mem_append]
    constructor
    · rintro ⟨⟨⟨hkey, hvalue⟩, hrest⟩, ⟨tkey, tvalue⟩, trest⟩
      exact ⟨⟨⟨hkey, tkey⟩, hvalue, tvalue⟩, hrest, trest⟩
    · rintro ⟨⟨⟨hkey, tkey⟩, hvalue, tvalue⟩, hrest, trest⟩
      exact ⟨⟨⟨hkey, hvalue⟩, hrest⟩, ⟨tkey, tvalue⟩, trest⟩

/-- A value in which nothing stands but one handle or one type. -/
theorem knows_iff_of_held_eq {v : Value} (x : Leaf) (hv : Held.of v = [x]) :
    D.Knows s v ↔ D.Allows s x := by
  rw [Knows, hv, List.forall_mem_singleton]

variable {h : Handle}

@[simp] theorem knows_reference : D.Knows s (Value.reference h) ↔ D.known s h :=
  knows_iff_of_held_eq (.handle h) rfl

@[simp] theorem knows_pointer : D.Knows s (Value.pointer h) ↔ D.known s h :=
  knows_iff_of_held_eq (.handle h) rfl

@[simp] theorem knows_typeValue {type : TypeTree} :
    D.Knows s (Value.type type) ↔ (D.strict → type.Sound) :=
  knows_iff_of_held_eq (.type type) rfl

/-- The composite a value refers to or points to is one it holds. -/
theorem Knows.handle? {v : Value} (hv : D.Knows s v) : D.Knows s v.handle? := by
  cases v with
  | pointer h => exact knows_handle.mpr (knows_pointer.mp hv)
  | reference h => exact knows_handle.mpr (knows_reference.mp hv)
  | _ => exact knows_none

/-- A value in which neither handles nor types stand. -/
theorem knows_of_held_eq_nil {v : Value} (hv : Held.of v = []) : D.Knows s v := by
  intro x hx
  rw [hv] at hx
  cases hx

@[simp] theorem knows_boolean {b : Bool} : D.Knows s (Value.boolean b) := knows_of_held_eq_nil rfl

@[simp] theorem knows_text {t : String} : D.Knows s (Value.string t) := knows_of_held_eq_nil rfl

@[simp] theorem knows_integer {n : Int64} : D.Knows s (Value.integer n) := knows_of_held_eq_nil rfl

@[simp] theorem knows_float {x : Float} : D.Knows s (Value.float x) := knows_of_held_eq_nil rfl

/-- The keys of a list's dictionary are numbers. -/
theorem knows_ofValues {values : List (Option Value)} (hv : D.Knows s values) :
    D.Knows s (Dictionary.ofValues values) := by
  rw [knows_list] at hv ⊢
  intro entry hentry
  obtain ⟨⟨value, index⟩, hmem, rfl⟩ := List.mem_map.mp hentry
  have hvalue : value ∈ values := by
    rw [List.mk_mem_zipIdx_iff_getElem?] at hmem
    exact List.mem_of_getElem? hmem
  exact knows_pair.mpr ⟨knows_integer, hv value hvalue⟩

variable {value : Option Value}

/-- Inserting adds an entry or replaces a value; nothing comes from elsewhere. -/
theorem knows_insert {key : Value} {entries : Dictionary}
    (hk : D.Knows s key) (hv : D.Knows s value) (he : D.Knows s entries) :
    D.Knows s (Dictionary.insert key value entries) := by
  induction entries with
  | nil => exact knows_cons.mpr ⟨knows_pair.mpr ⟨hk, hv⟩, knows_nil⟩
  | cons entry rest ih =>
    obtain ⟨hentry, hrest⟩ := knows_cons.mp he
    rw [Dictionary.insert]
    split
    · exact knows_cons.mpr ⟨knows_pair.mpr ⟨(knows_pair.mp hentry).1, hv⟩, hrest⟩
    · exact knows_cons.mpr ⟨hentry, ih hrest⟩

/-- What is read from a dictionary is one of its values. -/
theorem knows_get? {entries : Dictionary} (he : D.Knows s entries) (key : Value) :
    D.Knows s (Dictionary.get? entries key) := by
  refine Knows.bind ?_
  intro entry hentry
  exact (knows_pair.mp (knows_list.mp he entry (List.mem_of_find?_eq_some hentry))).2

/-- Removing leaves entries that were there. -/
theorem knows_remove {entries : Dictionary} (he : D.Knows s entries) (key : Value) :
    D.Knows s (Dictionary.remove entries key) := by
  rw [knows_list] at he ⊢
  exact fun entry hentry => he entry (List.mem_filter.mp hentry).1

theorem Knows.drop {α : Type} [Held α] {l : List α} (h : D.Knows s l) (n : Nat) :
    D.Knows s (l.drop n) := by
  rw [knows_list] at h ⊢
  exact fun a ha => h a (List.mem_of_mem_drop ha)

theorem Knows.getElem? {α : Type} [Held α] {l : List α} (h : D.Knows s l) (n : Nat) :
    D.Knows s l[n]? := by
  rw [knows_option]
  exact fun a ha => knows_list.mp h a (List.mem_of_getElem? ha)

/-- The composite a value names is one of the store; a stale handle names nothing. -/
theorem knows_compositeOf {m : Machine} :
    D.Knows m.store (m.compositeOf value) := by
  rw [knows_option]
  intro h hh
  exact knows_handle.mpr (D.known_there (Option.filter_eq_some_iff.mp hh).2)

end Discipline

/-! ## Types -/

namespace TypeTree

/-- What is copied out of a type refers to what the type does. -/
theorem mem_references_of_copyInto? {type : TypeTree} {levels index : Nat} {parent : Option Nat}
    {out copied : List TypePart} (hcopy : type.copyInto? levels index parent out = some copied)
    (hh : h ∈ copied.filterMap (·.reference)) :
      h ∈ out.filterMap (·.reference) ∨ h ∈ type.references := by
  induction levels generalizing index parent out copied with
  | zero => cases hcopy
  | succ levels ih =>
    have hchildren : ∀ (children : List Nat) (parent : Option Nat) (out : List TypePart),
        children.foldlM (fun copied child => type.copyInto? levels child parent copied) out =
        some copied →
        h ∈ out.filterMap (·.reference) ∨ h ∈ type.references := by
      intro children parent
      induction children with
      | nil =>
        intro out hcopied
        obtain rfl := Option.some.inj hcopied
        exact .inl hh
      | cons child children ihrest =>
        intro out hcopied
        rw [List.foldlM_cons] at hcopied
        obtain ⟨next, hnext, hrest⟩ := Option.bind_eq_some_iff.mp hcopied
        rcases ihrest next hrest with hin | hin
        · exact ih hnext hin
        · exact .inr hin
    rw [copyInto?] at hcopy
    rcases hchildren _ _ _ hcopy with hin | hin
    · rw [List.filterMap_append, List.mem_append] at hin
      rcases hin with hin | hin
      · exact .inl hin
      · obtain ⟨part, hpart, href⟩ := List.mem_filterMap.mp hin
        rw [List.mem_singleton] at hpart
        rw [hpart] at href
        exact .inr (mem_references_of_part href)
    · exact .inr hin

/-- A subtype refers to nothing that the type does not. -/
theorem mem_references_of_subtype {type : TypeTree} {index : Nat}
    (hh : h ∈ (type.subtype index).references) : h ∈ type.references := by
  rw [subtype, subtype?] at hh
  split at hh
  · cases hcopy : type.copyInto? (outOfReach + type.size + 1) index none [] with
    | none =>
      rw [hcopy] at hh
      cases hh
    | some copied =>
      rw [hcopy] at hh
      rcases mem_references_of_copyInto? hcopy hh with hin | hin
      · cases hin
      · exact hin
  · cases hh

/-- The class a type inherits from is the reference of one of its parts. -/
theorem mem_references_of_inherited? {type : TypeTree} (hh : type.inherited? = some h) :
    h ∈ type.references := by
  obtain ⟨child, _, hc⟩ := List.exists_of_findSome?_eq_some hh
  exact mem_references_of_part hc

@[simp] theorem references_ofKind (k : Kind) : (ofKind k).references = [] := rfl

end TypeTree

namespace Discipline

variable {D : Discipline} {s : Store} {type : TypeTree}

/-- A type is known if its references are, and has to be sound where that is asked for. -/
theorem knows_type :
    D.Knows s type ↔ (D.strict → type.Sound) ∧ ∀ h ∈ type.references, D.known s h := by
  show (∀ x ∈ Leaf.type type :: type.references.map Leaf.handle, D.Allows s x) ↔ _
  rw [List.forall_mem_cons, List.forall_mem_map]
  exact Iff.rfl

/-- A type that refers to nothing. -/
theorem knows_of_references_eq_nil (hsound : type.Sound) (h : type.references = []) :
    D.Knows s type := by
  rw [knows_type, h]
  exact ⟨fun _ => hsound, fun _ h => nomatch h⟩

/-- Part of a type refers to nothing more. -/
theorem Knows.subtype (h : D.Knows s type) (index : Nat) : D.Knows s (type.subtype index) := by
  rw [knows_type] at h ⊢
  exact ⟨fun hstrict => (h.1 hstrict).subtype index, fun x hx =>
    h.2 x (TypeTree.mem_references_of_subtype hx)⟩

theorem Knows.inherited? (h : D.Knows s type) : D.Knows s type.inherited? := by
  rw [knows_option]
  intro x hx
  exact knows_handle.mpr ((knows_type.mp h).2 x (TypeTree.mem_references_of_inherited? hx))

/-- Changing what says neither where a part stands nor what it refers to or collects. -/
theorem Knows.adjust_same (h : D.Knows s type) (index : Nat) {change : TypePart → TypePart}
    (hparent : ∀ p, (change p).parent = p.parent)
    (hreference : ∀ p, (change p).reference = p.reference)
    (hcollects : ∀ p a, (change p).collects a = p.collects a)
    (hpredefined : ∀ p, (change p).predefined = p.predefined) :
    D.Knows s (type.adjust index change) := by
  obtain ⟨hsound, hknown⟩ := knows_type.mp h
  refine knows_type.mpr ⟨fun hstrict => ?_, fun x hx => hknown x ?_⟩
  · exact (hsound hstrict).adjust_same index hparent hcollects fun p => .inl (hpredefined p)
  · have hsame : ∀ p x, (change p).reference = some x → p.reference = some x ∨ False :=
      fun p x hx => Or.inl (hreference p ▸ hx)
    exact (TypeTree.mem_references_adjust hsame hx).resolve_right id

end Discipline

/-! ## Composites -/

namespace Composite

variable {c : Composite} {h : Handle}

/-- A slot names something that stands in the composite. -/
theorem mem_named_of_slot {slot : Slot} (hh : c.links.get slot = some h) : h ∈ c.named := by
  by_cases hs : slot = .currentType
  · subst hs
    exact List.mem_append_right _ (Option.mem_toList.mpr hh)
  · have hmem : slot ∈ retainingSlots := by
      cases slot <;> first | decide | exact absurd rfl hs
    refine List.mem_append_left _ ?_
    unfold references
    simp only [List.append_assoc]
    exact List.mem_append_left _ (List.mem_filterMap.mpr ⟨slot, hmem, hh⟩)

/-- What a composite's type refers to it names, as it does its imports and what its members hold. -/
theorem mem_named_of_type (hh : h ∈ c.type.references) : h ∈ c.named := by
  simp [named, references, hh]

theorem mem_named_of_import (hh : h ∈ c.imports.values) : h ∈ c.named := by
  simp [named, references, hh]

/-- By the entry the name is found in. -/
theorem mem_named_of_member {name : String} {overloads : List Overload} {overload : Overload}
    (hget : c.members.get? name = some overloads) (hmem : overload ∈ overloads)
    (hh : h ∈ overload.references) : h ∈ c.named := by
  obtain ⟨entry, hfind, rfl⟩ := Option.map_eq_some_iff.mp hget
  have hmember : h ∈ memberReferences c.members :=
    List.mem_flatMap.mpr ⟨entry, List.mem_of_find?_eq_some hfind,
      List.mem_flatMap.mpr ⟨overload, hmem, hh⟩⟩
  simp [named, references, hmember]

/-- A member's types are its own and those in its value. -/
theorem mem_types_of_member {name : String} {overloads : List Overload}
    {overload : Overload} {type : TypeTree}
    (hget : c.members.get? name = some overloads) (hmem : overload ∈ overloads)
    (ht : type ∈ overload.types) : type ∈ c.types := by
  obtain ⟨entry, hfind, rfl⟩ := Option.map_eq_some_iff.mp hget
  refine List.mem_cons_of_mem _ (List.mem_flatMap.mpr ⟨entry, List.mem_of_find?_eq_some hfind, ?_⟩)
  exact List.mem_flatMap.mpr ⟨overload, hmem, ht⟩

theorem mem_values_of_get? {imports : Assoc Handle} {name : String}
    (hh : imports.get? name = some h) : h ∈ imports.values := by
  obtain ⟨entry, hfind, rfl⟩ := Option.map_eq_some_iff.mp hh
  exact List.mem_map.mpr ⟨entry, List.mem_of_find?_eq_some hfind, rfl⟩

end Composite

/-- What a trail meets is in the store. -/
theorem Store.get?_of_mem_trailFrom {s : Store}
    {link : Handle → Composite → Option Handle} {steps : Nat}
    {visited : List Handle} {start : Option Handle} {p : Handle × Composite}
    (hp : p ∈ s.trailFrom link steps visited start) : s.get? p.1 = some p.2 := by
  induction steps generalizing visited start with
  | zero => simp [trailFrom] at hp
  | succ steps ih =>
    cases start with
    | none => simp [trailFrom] at hp
    | some h =>
      rw [trailFrom] at hp
      split at hp
      · exact absurd hp (by simp)
      · split at hp
        · exact absurd hp (by simp)
        · rename_i c hc
          rcases List.mem_cons.mp hp with rfl | hp
          · exact hc
          · exact ih hp

namespace Discipline

variable {D : Discipline} {s : Store} {a : Handle} {c : Composite}

/-- A member is known by its type, its value and its observers together. -/
theorem knows_overload {o : Overload} :
    D.Knows s o ↔ D.Knows s o.type ∧ D.Knows s o.value ∧ D.Knows s o.observers := by
  show (∀ x ∈ Held.of o.type ++ Held.of o.value ++ Held.of o.observers, D.Allows s x) ↔ _
  rw [List.forall_mem_append, List.forall_mem_append, and_assoc]
  exact Iff.rfl

/-- The same by references and types, the form in which a store's laws are stated. -/
theorem knows_overload_iff {o : Overload} :
    D.Knows s o ↔ (∀ h ∈ o.references, D.known s h) ∧ ∀ type ∈ o.types, D.strict → type.Sound := by
  have hobservers : D.Knows s o.observers ↔ ∀ h ∈ o.observers.map (·.function), D.known s h := by
    simp only [knows_list, knows_observer, List.forall_mem_map]
  rw [knows_overload, knows_type, knows_optionValue, hobservers,
    Overload.references, Overload.types,
    List.forall_mem_append, List.forall_mem_append, List.forall_mem_cons]
  constructor
  · rintro ⟨⟨ttype, htype⟩, ⟨hvalue, tvalue⟩, hobservers⟩
    exact ⟨⟨⟨htype, hvalue⟩, hobservers⟩, ttype, tvalue⟩
  · rintro ⟨⟨⟨htype, hvalue⟩, hobservers⟩, ttype, tvalue⟩
    exact ⟨⟨ttype, htype⟩, ⟨hvalue, tvalue⟩, hobservers⟩

/-- A good store knows what it links. -/
theorem knows_slot (hs : D.holds s) (hc : s.get? a = some c) (slot : Slot) :
    D.Knows s (c.links.get slot) := by
  rw [knows_option]
  intro h hh
  exact knows_handle.mpr (D.known_named hs hc (Composite.mem_named_of_slot hh))

theorem knows_link? (hs : D.holds s) (slot : Slot) (a : Handle) : D.Knows s (s.link? slot a) := by
  refine Knows.bind ?_
  intro c hc
  exact knows_slot hs hc slot

theorem knows_typeOf (hs : D.holds s) (hc : s.get? a = some c) : D.Knows s c.type :=
  knows_type.mpr ⟨fun hstrict => D.sound_stored hstrict hs hc List.mem_cons_self,
    fun _ hh => D.known_named hs hc (Composite.mem_named_of_type hh)⟩

/-- Whatever the name, its members are known: all there are, or none. -/
theorem knows_overloads (hs : D.holds s) (hc : s.get? a = some c) (name : String) :
    D.Knows s ((c.members.get? name).getD []) := by
  cases hget : c.members.get? name with
  | none => exact knows_nil
  | some overloads =>
    rw [Option.getD_some, knows_list]
    intro o ho
    refine knows_overload_iff.mpr ⟨fun h hh => ?_, fun type ht hstrict => ?_⟩
    · exact D.known_named hs hc (Composite.mem_named_of_member hget ho hh)
    · exact D.sound_stored hstrict hs hc (Composite.mem_types_of_member hget ho ht)

/-! ## Lookup -/

section Lookup

variable {L : Lookup}

/-- The composite a member names is one it holds. -/
theorem knows_named {o : Overload} (h : D.Knows s o) : D.Knows s (Lookup.named o) := by
  refine Knows.bind ?_
  intro v hv
  exact (knows_option.mp (knows_overload.mp h).2.1 v hv).handle?

/-- What is found among several things, by questions that may have no answer, is
    found at one of them. -/
theorem exists_of_findSomeM?_eq_some {α β : Type} {find : α → Option (Option β)}
    {items : List α} {b : β}
    (h : items.findSomeM? find = some (some b)) : ∃ item ∈ items, find item = some (some b) := by
  induction items with
  | nil => cases h
  | cons item items ih =>
    obtain ⟨found, hfound, hrest⟩ := Option.bind_eq_some_iff.mp h
    cases found with
    | some b' =>
      obtain rfl := Option.some.inj (Option.some.inj hrest)
      exact ⟨item, List.mem_cons_self, hfound⟩
    | none =>
      obtain ⟨other, hmem, hother⟩ := ih hrest
      exact ⟨other, List.mem_cons_of_mem _ hmem, hother⟩

/-- A function that takes arguments is in the store. -/
theorem contains_of_valueFunction? {arguments : List Argument} {function : Handle}
    (h : L.valueFunction? value arguments = some (some function)) :
      L.store.contains function = true := by
  rw [Lookup.valueFunction?] at h
  split at h
  · cases h
  · rename_i candidate c hcandidate
    obtain ⟨_, hvalue, hcandidate⟩ := Option.bind_eq_some_iff.mp hcandidate
    obtain ⟨_, hget, hfits⟩ := Option.bind_eq_some_iff.mp hcandidate
    obtain ⟨_, heq⟩ := Option.ite_none_right_eq_some.mp hfits
    obtain ⟨rfl, rfl⟩ := Prod.mk.inj (Option.some.inj heq)
    obtain ⟨fits, _, hpicked⟩ := Option.bind_eq_some_iff.mp h
    obtain ⟨_, heq⟩ := Option.ite_none_right_eq_some.mp (Option.some.inj hpicked)
    rw [← Option.some.inj heq]
    exact Store.contains_of_get? hget

/-- The function found for a value is a composite of the store, with no need to know the value: it
    was looked up before it was tried. -/
theorem contains_of_findValueFunction? {arguments : List Argument} {function : Handle}
    (h : L.findValueFunction? value arguments = some (some function)) :
      L.store.contains function = true := by
  unfold Lookup.findValueFunction? at h
  split at h
  · obtain ⟨_, _, hv⟩ := exists_of_findSomeM?_eq_some h
    exact contains_of_valueFunction? hv
  · exact contains_of_valueFunction? h

theorem knows_findValueFunction {arguments : List Argument} :
    D.Knows L.store (L.findValueFunction value arguments) := by
  rw [knows_option]
  intro h hh
  exact knows_handle.mpr
    (D.known_there (contains_of_findValueFunction? (Option.join_eq_some_iff.mp hh)))

/-- An entry numbered in order is an entry. -/
theorem mem_of_mem_zipIdx {α : Type} {l : List α} {x : α} {i : Nat}
    (h : (x, i) ∈ l.zipIdx) : x ∈ l :=
  List.mem_of_getElem? (List.mk_mem_zipIdx_iff_getElem?.mp h)

/-- Whatever the way of matching, one of the members given is chosen. -/
theorem knows_select {overloads : List Overload} (ho : D.Knows L.store overloads)
    (matching : Matching) : D.Knows L.store (L.select overloads matching) := by
  have hlast : ∀ p, ∀ x, Lookup.lastWhere p overloads = some x → x.1 ∈ overloads := by
    intro p x hx
    exact mem_of_mem_zipIdx (List.mem_reverse.mp (List.mem_of_find?_eq_some hx))
  have hnamed : ∀ o ∈ overloads, D.Knows L.store (Lookup.named o) :=
    fun o hmem => knows_named (knows_list.mp ho o hmem)
  rw [knows_option]
  intro p hp
  cases matching with
  | property =>
    obtain ⟨⟨o, i⟩, ho', rfl⟩ := Option.map_eq_some_iff.mp hp
    have hmem : o ∈ overloads := by
      rcases Option.or_eq_some_iff.mp ho' with h | ⟨_, h⟩
      · exact hlast _ _ h
      · exact mem_of_mem_zipIdx (List.mem_of_getLast? h)
    exact knows_pair.mpr ⟨knows_nat, hnamed o hmem⟩
  | call arguments =>
    obtain ⟨⟨o, i⟩, _, ho'⟩ := exists_of_findSomeM?_eq_some (Option.join_eq_some_iff.mp hp)
    obtain ⟨found, hfound, hpicked⟩ := Option.bind_eq_some_iff.mp ho'
    obtain ⟨f, rfl, rfl⟩ := Option.map_eq_some_iff.mp (Option.some.inj hpicked)
    exact knows_pair.mpr ⟨knows_nat,
      knows_handle.mpr (D.known_there (contains_of_findValueFunction? hfound))⟩
  | composite =>
    obtain ⟨⟨o, i⟩, _, ho'⟩ := List.exists_of_findSome?_eq_some hp
    obtain ⟨h, hh, rfl⟩ := Option.map_eq_some_iff.mp ho'
    have hthere := (Option.filter_eq_some_iff.mp hh).2
    exact knows_pair.mpr ⟨knows_nat, knows_handle.mpr (D.known_there hthere)⟩
  | nominal type =>
    obtain ⟨⟨o, i⟩, hmem, ho'⟩ := exists_of_findSomeM?_eq_some (Option.join_eq_some_iff.mp hp)
    obtain ⟨_, _, hpicked⟩ := Option.bind_eq_some_iff.mp ho'
    obtain ⟨_, heq⟩ := Option.ite_none_right_eq_some.mp (Option.some.inj hpicked)
    rw [← Option.some.inj heq]
    exact knows_pair.mpr ⟨knows_nat, hnamed o (mem_of_mem_zipIdx (List.mem_reverse.mp hmem))⟩

/-- A member made up for a level refers to the level and nothing else. -/
theorem knows_synthesized {owner target : Handle} (ho : D.known L.store owner)
    (ht : D.known L.store target) (matching : Matching) :
    D.Knows L.store (L.synthesized owner target matching) := by
  have hov : D.Knows L.store
      ({ type := .ofPredefined .any, value := some (.reference target) } : Overload) :=
    knows_overload.mpr
      ⟨knows_of_references_eq_nil (TypeTree.sound_ofPredefined _) rfl,
        knows_reference.mpr ht, knows_nil⟩
  have hsel := knows_select (L := L) (knows_cons.mpr ⟨hov, knows_nil⟩) matching
  rw [knows_option] at hsel ⊢
  intro r hr
  obtain ⟨p, hp, rfl⟩ := Option.map_eq_some_iff.mp hr
  exact knows_resolved.mpr ⟨ho, hov, (knows_pair.mp (hsel p hp)).2⟩

/-- A pseudo member is the global namespace or a link of the composite. -/
theorem knows_pseudo (hs : D.holds L.store) (hc : L.store.get? a = some c) (name : String) :
    D.Knows L.store (L.pseudo c name) := by
  unfold Lookup.pseudo
  split
  · rw [knows_option]
    intro h hh
    exact knows_handle.mpr (D.known_there (Store.contains_of_handleAt? hh))
  · exact Knows.bind fun slot _ => knows_slot hs hc slot

/-- A composite answers with a member of its own, an import or a pseudo member. -/
theorem knows_of_answer (hs : D.holds L.store) (hc : L.store.get? a = some c) {name : String}
    {matching : Matching} {r : Resolved} (hr : L.answer a c name matching = .found r) :
    D.Knows L.store r := by
  have ha : D.known L.store a := D.known_there (Store.contains_of_get? hc)
  have hfinal : ∀ o : Option Resolved, Lookup.Answer.final o = .found r → D.Knows L.store o →
      D.Knows L.store r := by
    intro o h hk
    cases o with
    | none => cases h
    | some r' => cases h; exact hk
  have hoverloads := knows_overloads hs hc name
  unfold Lookup.answer at hr
  dsimp only at hr
  split at hr
  · rename_i index picked hsel
    refine hfinal _ hr ?_
    rw [knows_option]
    intro r' hr'
    obtain ⟨o, ho, rfl⟩ := Option.map_eq_some_iff.mp hr'
    have hpicked := knows_option.mp (knows_select hoverloads matching) _ hsel
    exact knows_resolved.mpr
      ⟨ha, knows_option.mp (hoverloads.getElem? index) o ho, (knows_pair.mp hpicked).2⟩
  · split at hr
    · rename_i target ht
      have hk := knows_option.mp (knows_pseudo hs hc name) target ht
      exact hfinal _ hr (knows_synthesized ha (knows_handle.mp hk) matching)
    · split at hr
      · split at hr
        · rename_i imported hi
          have hk := D.known_named hs hc
            (Composite.mem_named_of_import (Composite.mem_values_of_get? hi))
          exact hfinal _ hr (knows_synthesized ha hk matching)
        · cases hr
      · cases hr

/-- By induction on the steps left; what answers is a composite of the store. -/
theorem knows_memberAmong (hs : D.holds L.store) (name : String) (matching : Matching) (steps : Nat)
    (visited pending : List Handle) :
    D.Knows L.store (L.memberAmong name matching steps visited pending) := by
  induction steps generalizing visited pending with
  | zero => exact knows_none
  | succ steps ih =>
    rw [Lookup.memberAmong]
    split
    · exact knows_none
    · split
      · exact knows_none
      · rename_i c hc
        split
        · rename_i r hr
          exact knows_of_answer hs hc hr
        · exact ih _ _
        · exact ih _ _

/-- What is found on a trail comes with the composite it was found on. -/
theorem knows_firstOn (hs : D.holds L.store) {trail : List (Handle × Composite)} {name : String}
    {matching : Matching} {p : Handle × Resolved} (hp : L.firstOn trail name matching = some p) :
    D.Knows L.store p.2 := by
  obtain ⟨q, _, hq⟩ := List.exists_of_findSome?_eq_some hp
  obtain ⟨r, hr, rfl⟩ := Option.map_eq_some_iff.mp hq
  exact knows_option.mp (knows_memberAmong hs name matching _ _ _) r hr

/-- Whether found at once or on a second search, it is found on a trail. -/
theorem knows_onObjects (hs : D.holds L.store) (name : String) (matching : Matching) :
    D.Knows L.store (L.onObjects a c name matching) := by
  unfold Lookup.onObjects
  dsimp only
  split
  · exact knows_none
  · rename_i level found hfound
    split
    · rw [knows_option]
      intro r hr
      obtain ⟨p, hp, rfl⟩ := Option.map_eq_some_iff.mp hr
      exact knows_firstOn hs hp
    · exact knows_firstOn hs hfound

theorem knows_onTypes (hs : D.holds L.store) (name : String) (matching : Matching) :
    D.Knows L.store (L.onTypes a c name matching) := by
  rw [knows_option]
  intro r hr
  obtain ⟨p, hp, rfl⟩ := Option.map_eq_some_iff.mp hr
  exact knows_firstOn hs hp

/-- What a lookup finds is known, wherever it starts. -/
theorem knows_find? (hs : D.holds L.store) (start : Handle) (name : String) (matching : Matching)
    (internal : Bool) : D.Knows L.store (L.find? start name matching internal) := by
  have hlevel : ∀ a c, D.Knows L.store (L.onLevel a c name matching) := by
    intro a c
    refine Knows.or ?_ ((knows_onObjects hs name matching).or (knows_onTypes hs name matching))
    split
    · exact knows_memberAmong hs name matching _ _ _
    · exact knows_none
  rw [knows_option]
  intro r hr
  obtain ⟨⟨a, c⟩, _, hfound⟩ := List.exists_of_findSome?_eq_some hr
  exact knows_option.mp (hlevel a c) r hfound

theorem knows_matching {o : Option Resolved} (h : D.Knows s o) : D.Knows s (o.bind (·.matching)) :=
  Knows.bind fun r hr => (knows_resolved.mp (knows_option.mp h r hr)).2.2

end Lookup

/-! ## Reading a machine -/

section Machine

variable {m : Machine}

/-- A machine that fits knows all it finds.  Every lemma about names comes down to this one. -/
theorem knows_lookup (hm : D.Fits m) (start : Handle) (name : String) (matching : Matching)
    (internal : Bool) : D.Knows m.store (m.lookup.find? start name matching internal) :=
  knows_find? (L := m.lookup) hm.holds start name matching internal

/-- The caller is the type of the scope, which the scope links to. -/
theorem knows_callerOf (hm : D.Fits m) (scope : Handle) : D.Knows m.store (m.callerOf scope) :=
  knows_link? hm.holds .currentType scope

/-- What a call is planned with was found: the function, and the composite it runs on. -/
theorem knows_planFor (hm : D.Fits m) {function base : Option Handle}
    (hf : D.Knows m.store function) (hb : D.Knows m.store base) (namedInit : Bool) :
      D.Knows m.store (m.planFor function base namedInit) := by
  refine knows_plan.mpr ⟨hf, Knows.or ?_ hb⟩
  refine Knows.bind ?_
  intro c hc
  obtain ⟨f, _, hget⟩ := Option.bind_eq_some_iff.mp hc
  exact knows_slot hm.holds hget .currentType

/-- An object stands for its type, which it links to. -/
theorem knows_initialized (hm : D.Fits m) (hh : D.known m.store h) :
    D.known m.store (m.initialized h) := by
  unfold Machine.initialized
  split
  · rename_i c hc
    split
    · have hk := knows_slot hm.holds hc .currentType
      cases hct : c.links.currentType with
      | none => exact hh
      | some x => exact knows_handle.mp (knows_option.mp hk x hct)
    · exact hh
  · exact hh

/-- What a call plans to call is known if the callee is. -/
theorem knows_planned (hm : D.Fits m) {callee : Run.Callee} (hc : D.Knows m.store callee)
    (arguments : List Argument) : D.Knows m.store (m.plan callee arguments) := by
  have hfound : ∀ (composite : Option Handle) name matching internal, D.Knows m.store
      (composite.bind fun composite =>
        (m.lookup.find? composite name matching internal).bind (·.matching)) :=
    fun composite name matching internal =>
      Knows.bind fun start _ => knows_matching (knows_lookup hm start name matching internal)
  have hnamed : ∀ named : Option Handle, D.Knows m.store named →
      D.Knows m.store (named.map m.initialized) := by
    intro named hn
    cases named with
    | none => exact knows_none
    | some h => exact knows_handle.mpr (knows_initialized hm (knows_handle.mp hn))
  unfold Machine.plan
  cases callee with
  | member composite name internal =>
    dsimp only
    split
    · exact knows_planFor hm (hfound _ _ _ _) hc _
    · exact knows_planFor hm (hfound _ _ _ _) (hnamed _ (hfound _ _ _ _)) _
  | value value =>
    dsimp only
    split
    · exact knows_planFor hm (knows_findValueFunction (L := m.lookup)) knows_none _
    · exact knows_planFor hm (hfound _ _ _ _)
        (hnamed _ (Knows.bind fun v hv => (knows_option.mp hc v hv).handle?)) _

/-- An object delegated to is met on a trail through the store. -/
theorem knows_delegated? {scope classHandle : Handle} :
    D.Knows m.store (m.delegated? scope classHandle) := by
  rw [knows_option]
  intro h hh
  obtain ⟨p, hp, rfl⟩ := Option.map_eq_some_iff.mp hh
  have hmem := List.mem_of_find?_eq_some (Option.filter_eq_some_iff.mp hp).1
  exact knows_handle.mpr (D.known_there (Store.contains_of_get? (Store.get?_of_mem_trailFrom hmem)))

/-- By induction on the place, as `writePlace` goes. -/
theorem knows_readPlace (hm : D.Fits m) (place : Place) : D.Knows m.store (m.readPlace place) := by
  induction place with
  | member composite name internal =>
    exact Knows.bind fun r hr =>
      (knows_overload.mp
        (knows_resolved.mp (knows_option.mp (knows_lookup hm _ _ _ _) r hr)).2.1).2.1
  | entry base key ih =>
    rw [Machine.readPlace]
    split
    · rename_i entries hentries
      exact knows_get? (knows_dictionary.mp (knows_option.mp ih _ hentries)) key
    · exact knows_none

end Machine

end Discipline

/-! ## Types and signatures as written -/

namespace Discipline

open Run

variable {D : Discipline} {m : Machine} {scope : Handle} {type : TypeTree}

/-- What some name means is known. -/
theorem known_of_offers (hm : D.Fits m) (hh : m.lookup.Offers h) : D.known m.store h := by
  obtain ⟨start, name, hfind⟩ := hh
  exact knows_handle.mp
    (knows_option.mp (knows_matching (knows_lookup hm start name .composite false)) h hfind)

/-- Reading on from a known type keeps the discipline: nothing but reports changes, and what is new
    in the type is what names mean. -/
theorem Keeps.of_gives {x : Run TypeTree} (hx : Gives m.lookup x (type.Continues m.lookup))
    (h : D.Knows m.store type) : D.Keeps m x x := by
  intro hm
  obtain ⟨hsound, hknown⟩ := knows_type.mp h
  obtain ⟨t, reports, hrun, hcontinues, hrefers⟩ := hx m rfl
  have ht : D.Knows m.store t :=
    knows_type.mpr ⟨fun hstrict => hcontinues (hsound hstrict), fun y hy =>
      (hrefers y hy).elim (hknown y) (known_of_offers hm)⟩
  exact Agree.of_eq hrun ⟨hm.holds, D.leads_refl _, rfl, rfl, ht, D.regime.same rfl rfl rfl⟩

/-- A type as written refers to what its names mean. -/
theorem typeOf_keeps (node : Option Node) : D.Keeps m (typeOf scope node) (typeOf scope node) :=
  Keeps.of_gives (typeOf_gives node) (knows_of_references_eq_nil TypeTree.sound_empty rfl)

theorem functionSignature_keeps (parts : SignatureParts Node) :
    D.Keeps m (functionSignature scope parts) (functionSignature scope parts) :=
  Keeps.of_gives (functionSignature_gives parts)
    (knows_of_references_eq_nil TypeTree.sound_empty rfl)

/-- What a declaration inherits is added to the type its composite has. -/
theorem declaredType_keeps (h : D.Knows m.store type) (parts : CompositeParts Node) :
    D.Keeps m (declaredType scope type parts) (declaredType scope type parts) :=
  Keeps.of_gives (declaredType_gives parts) h

end Discipline

end CompositeGraph
