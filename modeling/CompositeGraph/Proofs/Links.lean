/-
  LINKS of a composite, and how each change to it exchanges some for others.

    1. ENTRIES.    What stands under a name after putting and taking out.
    2. LINKS.      `Composite.linked`: the five sorts of links.
    3. EXCHANGES.  For each change, the links that may come and those that may go.
-/
import CompositeGraph.Proofs.Knowledge

namespace CompositeGraph

open Assoc

/-! ## Entries -/

namespace Assoc

variable {α : Type} {named : Assoc α} {name other : String} {value value' : α}

theorem mem_place {entries : List (String × α)} (hdistinct : (entries.map Prod.fst).Nodup) :
    (other, value') ∈ place name value entries ↔
      (other = name ∧ value' = value) ∨ (other ≠ name ∧ (other, value') ∈ entries) := by
  induction entries with
  | nil =>
    rw [place, List.mem_singleton, Prod.mk.injEq]
    simp
  | cons entry rest ih =>
    obtain ⟨hnew, hrest⟩ := List.nodup_cons.mp hdistinct
    have hmem : ∀ {n v}, (n, v) ∈ rest → n ∈ rest.map Prod.fst :=
      fun h => List.mem_map.mpr ⟨_, h, rfl⟩
    rw [place]
    by_cases he : entry.1 = name
    · rw [if_pos (by simpa using he), List.mem_cons, List.mem_cons, Prod.mk.injEq]
      constructor
      · rintro (h | h)
        · exact Or.inl h
        · refine Or.inr ⟨?_, Or.inr h⟩
          rintro rfl
          exact hnew (he ▸ hmem h)
      · rintro (h | ⟨hne, h | h⟩)
        · exact Or.inl h
        · exact absurd (by rw [← he, ← h]) hne
        · exact Or.inr h
    · rw [if_neg (by simpa using he), List.mem_cons, List.mem_cons, ih hrest]
      constructor
      · rintro (h | h | ⟨hne, h⟩)
        · refine Or.inr ⟨?_, Or.inl h⟩
          rintro rfl
          exact he (by rw [← h])
        · exact Or.inl h
        · exact Or.inr ⟨hne, Or.inr h⟩
      · rintro (h | ⟨hne, h | h⟩)
        · exact Or.inr (Or.inl h)
        · exact Or.inl h
        · exact Or.inr (Or.inr ⟨hne, h⟩)

theorem mem_entries_put : (other, value') ∈ (put name value named).entries ↔
    (other = name ∧ value' = value) ∨ (other ≠ name ∧ (other, value') ∈ named.entries) :=
  mem_place named.distinct

theorem mem_entries_remove : (other, value') ∈ (remove name named).entries ↔
    other ≠ name ∧ (other, value') ∈ named.entries := by
  simp [remove, and_comm]

theorem find?_of_mem {entries : List (String × α)} (hdistinct : (entries.map Prod.fst).Nodup)
    (h : (name, value) ∈ entries) :
      entries.find? (fun entry => entry.1 == name) = some (name, value) := by
  induction entries with
  | nil => cases h
  | cons entry rest ih =>
    obtain ⟨hnew, hrest⟩ := List.nodup_cons.mp hdistinct
    rcases List.mem_cons.mp h with rfl | h
    · simp
    · have hne : entry.1 ≠ name := by
        rintro rfl
        exact hnew (List.mem_map.mpr ⟨_, h, rfl⟩)
      rw [List.find?_cons_of_neg (by simpa using hne)]
      exact ih hrest h

theorem get?_eq_some_iff : named.get? name = some value ↔ (name, value) ∈ named.entries := by
  constructor
  · intro h
    obtain ⟨⟨n, v⟩, hfind, rfl⟩ := Option.map_eq_some_iff.mp h
    have hn : n = name := by simpa using List.find?_some hfind
    rw [← hn]
    exact List.mem_of_find?_eq_some hfind
  · intro h
    rw [get?, find?_of_mem named.distinct h]
    rfl

/-- A name that nothing stands under is not there to be taken out. -/
theorem remove_eq_self (h : named.get? name = none) : named.remove name = named := by
  have hall : ∀ entry ∈ named.entries, (entry.1 != name) = true := by
    intro entry hentry
    have hfind := Option.map_eq_none_iff.mp h
    simpa using List.find?_eq_none.mp hfind entry hentry
  obtain ⟨entries, distinct⟩ := named
  simp only [remove, mk.injEq]
  exact List.filter_eq_self.mpr hall

theorem mem_values : value ∈ named.values ↔ ∃ n, (n, value) ∈ named.entries := by
  simp [values]

end Assoc

/-! ## Links -/

/-- The sorts of links. -/
inductive LinkSort where
  | slot
  | type
  | imported
  | member
  | observer
  deriving DecidableEq

namespace Composite

variable {c : Composite} {y : Handle}

/-- What a composite is linked to by one sort of links. -/
def linked (c : Composite) : LinkSort → List Handle
  | .slot => retainingSlots.filterMap c.links.get
  | .type => c.type.references
  | .imported => c.imports.values
  | .member => memberReferences c.members
  | .observer => c.observers.map (·.function)

theorem mem_references : y ∈ c.references ↔ ∃ sort, y ∈ c.linked sort := by
  simp only [references, List.mem_append]
  constructor
  · rintro ((((h | h) | h) | h) | h)
    · exact ⟨.slot, h⟩
    · exact ⟨.type, h⟩
    · exact ⟨.imported, h⟩
    · exact ⟨.member, h⟩
    · exact ⟨.observer, h⟩
  · rintro ⟨sort, h⟩
    cases sort <;> simp only [linked] at h <;> simp only [h, true_or, or_true]

theorem mem_linked_slot : y ∈ c.linked .slot ↔ ∃ slot,
    slot ≠ .currentType ∧ c.links.get slot = some y := by
  have hmem : ∀ slot : Slot, slot ∈ retainingSlots ↔ slot ≠ .currentType := by
    intro slot
    cases slot <;> decide
  simp only [linked, List.mem_filterMap, hmem]

/-- What a slot names is linked, unless it is the type. -/
theorem mem_references_of_slot {slot : Slot} (hslot : slot ≠ .currentType)
    (hy : c.links.get slot = some y) :
    y ∈ c.references := mem_references.mpr ⟨.slot, mem_linked_slot.mpr ⟨slot, hslot, hy⟩⟩

theorem mem_linked_member : y ∈ c.linked .member ↔
    ∃ name overloads, (name, overloads) ∈ c.members.entries ∧
      y ∈ overloads.flatMap Overload.references := by
  simp [linked, memberReferences]

/-! ## Exchanges -/

/-- A change to a composite that ends no life and leaves the retainers alone.  The links that come
    are among `new`, and those that go among `old`. -/
structure Exchanges (f : Composite → Composite) (c : Composite) (new old : List Handle) : Prop where
  life : ∀ d, (f d).isAlive = d.isAlive
  retainers : ∀ d, (f d).links.retainers = d.links.retainers
  self : ∀ y, (f c).links.currentType = some y → c.links.currentType = some y ∨ y ∈ new
  come : ∀ y ∈ (f c).references, y ∈ c.references ∨ y ∈ new
  go : ∀ y ∈ c.references, y ∈ (f c).references ∨ y ∈ old

variable (c)

variable {f : Composite → Composite}

variable {new old : List Handle}

/-- A change to one sort of links. -/
theorem Exchanges.of_sort (sort : LinkSort) (life : ∀ d, (f d).isAlive = d.isAlive)
    (retainers : ∀ d, (f d).links.retainers = d.links.retainers)
    (self : ∀ y, (f c).links.currentType = some y → c.links.currentType = some y ∨ y ∈ new)
    (others : ∀ other, other ≠ sort → (f c).linked other = c.linked other)
    (come : ∀ y ∈ (f c).linked sort, y ∈ c.linked sort ∨ y ∈ new)
    (go : ∀ y ∈ c.linked sort, y ∈ (f c).linked sort ∨ y ∈ old) : Exchanges f c new old where
  life := life
  retainers := retainers
  self := self
  come y hy := by
    obtain ⟨other, h⟩ := mem_references.mp hy
    by_cases ho : other = sort
    · exact (come y (ho ▸ h)).imp_left fun h => mem_references.mpr ⟨sort, h⟩
    · exact Or.inl (mem_references.mpr ⟨other, others other ho ▸ h⟩)
  go y hy := by
    obtain ⟨other, h⟩ := mem_references.mp hy
    by_cases ho : other = sort
    · exact (go y (ho ▸ h)).imp_left fun h => mem_references.mpr ⟨sort, h⟩
    · exact Or.inl (mem_references.mpr ⟨other, (others other ho).symm ▸ h⟩)

/-- An exchange in which all of `new` come, and all of `old` were there. -/
structure Replaces (f : Composite → Composite) (c : Composite)
    (new old : List Handle) : Prop extends Exchanges f c new old where
  same_self : (f c).links.currentType = c.links.currentType
  new_mem : ∀ y ∈ new, y ∈ (f c).references
  old_mem : ∀ y ∈ old, y ∈ c.references

/-- A change to one sort of links, other than slots. -/
theorem Replaces.of_sort (sort : LinkSort)
    (life : ∀ d, (f d).isAlive = d.isAlive) (links : ∀ d, (f d).links = d.links)
    (others : ∀ other, other ≠ sort → (f c).linked other = c.linked other)
    (come : ∀ y, y ∈ (f c).linked sort → y ∈ c.linked sort ∨ y ∈ new)
    (go : ∀ y, y ∈ c.linked sort → y ∈ (f c).linked sort ∨ y ∈ old)
    (new_mem : ∀ y ∈ new, y ∈ (f c).linked sort) (old_mem : ∀ y ∈ old, y ∈ c.linked sort) :
    Replaces f c new old where
  toExchanges := .of_sort c sort life (fun d => by rw [links])
    (fun y hy => Or.inl (by rw [← links c]; exact hy)) others come go
  same_self := by rw [links]
  new_mem y hy := mem_references.mpr ⟨sort, new_mem y hy⟩
  old_mem y hy := mem_references.mpr ⟨sort, old_mem y hy⟩

/-- Those of one list that another lacks. -/
theorem mem_missingFrom {others handles : List Handle} {y : Handle} :
    y ∈ Run.missingFrom others handles ↔ y ∈ handles ∧ y ∉ others := by
  simp [Run.missingFrom]

/-- What is in both lists need not be exchanged. -/
theorem Replaces.reconciled {c : Composite} (h : Replaces f c new old) :
      Replaces f c (Run.missingFrom old new) (Run.missingFrom new old) where
  life := h.life
  retainers := h.retainers
  self y hy := Or.inl (h.same_self ▸ hy)
  come y hy := by
    rcases h.come y hy with hc | hnew
    · exact Or.inl hc
    · by_cases hold : y ∈ old
      · exact Or.inl (h.old_mem y hold)
      · exact Or.inr (mem_missingFrom.mpr ⟨hnew, hold⟩)
  go y hy := by
    rcases h.go y hy with hc | hold
    · exact Or.inl hc
    · by_cases hnew : y ∈ new
      · exact Or.inl (h.new_mem y hnew)
      · exact Or.inr (mem_missingFrom.mpr ⟨hold, hnew⟩)
  same_self := h.same_self
  new_mem y hy := h.new_mem y (mem_missingFrom.mp hy).1
  old_mem y hy := h.old_mem y (mem_missingFrom.mp hy).1

/-- A change to what no link depends on. -/
theorem Exchanges.of_same (life : ∀ d, (f d).isAlive = d.isAlive)
    (links : ∀ d, (f d).links = d.links) (references : (f c).references = c.references) :
    Exchanges f c [] [] where
  life := life
  retainers d := by rw [links]
  self y hy := Or.inl (by rw [← links c]; exact hy)
  come y hy := Or.inl (references ▸ hy)
  go y hy := Or.inl (references ▸ hy)

theorem exchanges_slot (slot : Slot) (value : Option Handle) :
    Exchanges (fun d => d.setSlot slot value) c value.toList (c.links.get slot).toList := by
  refine .of_sort c .slot (fun _ => rfl) (fun d => by cases slot <;> rfl) ?_ ?_ ?_ ?_
  · intro y hy
    have hy : (c.links.set slot value).get .currentType = some y := hy
    by_cases hs : Slot.currentType = slot
    · rw [← hs, Links.get_set_self] at hy
      exact Or.inr (Option.mem_toList.mpr hy)
    · rw [Links.get_set_ne _ _ hs] at hy
      exact Or.inl hy
  · intro other ho
    cases other <;> trivial
  · intro y hy
    obtain ⟨other, hself, h⟩ := mem_linked_slot.mp hy
    have h : (c.links.set slot value).get other = some y := h
    by_cases hs : other = slot
    · rw [hs, Links.get_set_self] at h
      exact Or.inr (Option.mem_toList.mpr h)
    · rw [Links.get_set_ne _ _ hs] at h
      exact Or.inl (mem_linked_slot.mpr ⟨other, hself, h⟩)
  · intro y hy
    obtain ⟨other, hself, h⟩ := mem_linked_slot.mp hy
    by_cases hs : other = slot
    · rw [hs] at h
      exact Or.inr (Option.mem_toList.mpr h)
    · refine Or.inl (mem_linked_slot.mpr ⟨other, hself, ?_⟩)
      show (c.links.set slot value).get other = some y
      rw [Links.get_set_ne _ _ hs]
      exact h

theorem replaces_type (type : TypeTree) :
    Replaces (fun d => { d with type }) c type.references c.type.references := by
  refine .of_sort c .type (fun _ => rfl) (fun _ => rfl) ?_ (fun _ => Or.inr) (fun _ => Or.inr)
    (fun _ => id) (fun _ => id)
  intro other ho
  cases other <;> trivial

theorem replaces_import (name : String) (imported : Handle) :
    Replaces (fun d => { d with imports := d.imports.put name imported }) c [imported]
      (c.imports.get? name).toList := by
  refine .of_sort c .imported (fun _ => rfl) (fun _ => rfl) ?_ ?_ ?_ ?_ ?_
  · intro other ho
    cases other <;> trivial
  · intro y hy
    obtain ⟨n, hn⟩ := mem_values.mp hy
    rcases mem_entries_put.mp hn with ⟨_, rfl⟩ | ⟨_, hn⟩
    · exact Or.inr List.mem_cons_self
    · exact Or.inl (mem_values.mpr ⟨n, hn⟩)
  · intro y hy
    obtain ⟨n, hn⟩ := mem_values.mp hy
    by_cases hname : n = name
    · rw [hname] at hn
      exact Or.inr (Option.mem_toList.mpr (get?_eq_some_iff.mpr hn))
    · exact Or.inl (mem_values.mpr ⟨n, mem_entries_put.mpr (Or.inr ⟨hname, hn⟩)⟩)
  · intro y hy
    rw [List.mem_singleton.mp hy]
    exact mem_values.mpr ⟨name, mem_entries_put.mpr (Or.inl ⟨rfl, rfl⟩)⟩
  · intro y hy
    exact mem_values.mpr ⟨name, get?_eq_some_iff.mp (Option.mem_toList.mp hy)⟩

variable {name : String}

theorem replaces_removeImport {old : Handle} (hold : c.imports.get? name = some old) :
    Replaces (fun d => { d with imports := d.imports.remove name }) c [] [old] := by
  refine .of_sort c .imported (fun _ => rfl) (fun _ => rfl) ?_ ?_ ?_ (fun _ h => nomatch h) ?_
  · intro other ho
    cases other <;> trivial
  · intro y hy
    obtain ⟨n, hn⟩ := mem_values.mp hy
    exact Or.inl (mem_values.mpr ⟨n, (mem_entries_remove.mp hn).2⟩)
  · intro y hy
    obtain ⟨n, hn⟩ := mem_values.mp hy
    by_cases hname : n = name
    · rw [hname, ← get?_eq_some_iff, hold] at hn
      cases hn
      exact Or.inr List.mem_cons_self
    · exact Or.inl (mem_values.mpr ⟨n, mem_entries_remove.mpr ⟨hname, hn⟩⟩)
  · intro y hy
    rw [List.mem_singleton.mp hy]
    exact mem_values.mpr ⟨name, get?_eq_some_iff.mp hold⟩

theorem replaces_addObserver (observer : Observer) :
    Replaces (fun d => { d with observers := d.observers ++ [observer] }) c
      [observer.function] [] := by
  have hlinked : ∀ y,
    y ∈ (({ c with observers := c.observers ++ [observer] } : Composite).linked .observer) ↔
      y ∈ c.linked .observer ∨ y ∈ [observer.function] := by
    intro y
    simp only [linked, List.map_append, List.mem_append, List.map_cons, List.map_nil]
  refine .of_sort c .observer (fun _ => rfl) (fun _ => rfl) ?_ (fun y => (hlinked y).mp)
    (fun y hy => Or.inl ((hlinked y).mpr (Or.inl hy))) (fun y hy => (hlinked y).mpr (Or.inr hy))
    (fun _ h => nomatch h)
  intro other ho
  cases other <;> trivial

/-- Some observers are taken off. -/
theorem replaces_removeObserver {p : Observer → Bool} {removed kept : List Observer}
    (h : c.observers.partition p = (removed, kept)) :
    Replaces (fun d => { d with observers := kept }) c [] (removed.map (·.function)) := by
  rw [List.partition_eq_filter_filter] at h
  cases h
  refine .of_sort c .observer (fun _ => rfl) (fun _ => rfl) ?_ ?_ ?_ (fun _ h => nomatch h) ?_
  · intro other ho
    cases other <;> trivial
  · intro y hy
    obtain ⟨o, ho, rfl⟩ := List.mem_map.mp hy
    exact Or.inl (List.mem_map.mpr ⟨o, (List.mem_filter.mp ho).1, rfl⟩)
  · intro y hy
    obtain ⟨o, ho, rfl⟩ := List.mem_map.mp hy
    cases hp : p o with
    | true => exact Or.inr (List.mem_map.mpr ⟨o, List.mem_filter.mpr ⟨ho, hp⟩, rfl⟩)
    | false => exact Or.inl (List.mem_map.mpr ⟨o, List.mem_filter.mpr ⟨ho, by simp [hp]⟩, rfl⟩)
  · intro y hy
    obtain ⟨o, ho, rfl⟩ := List.mem_map.mp hy
    exact List.mem_map.mpr ⟨o, (List.mem_filter.mp ho).1, rfl⟩

/-! ### Members -/

/-- Composites that overloads name. -/
def overloadReferences (overloads : List Overload) : List Handle :=
  overloads.flatMap Overload.references

theorem mem_linked_member_put {overloads : List Overload} (h : y ∈ overloadReferences overloads) :
    y ∈ ({ c with members := c.members.put name overloads } : Composite).linked .member :=
  mem_linked_member.mpr ⟨name, overloads, mem_entries_put.mpr (Or.inl ⟨rfl, rfl⟩), h⟩

theorem mem_linked_member_of_get?
    (h : y ∈ overloadReferences ((c.members.get? name).getD [])) : y ∈ c.linked .member := by
  cases hget : c.members.get? name with
  | none => rw [hget] at h; cases h
  | some overloads =>
    rw [hget] at h
    exact mem_linked_member.mpr ⟨name, overloads, get?_eq_some_iff.mp hget, h⟩

/-- The overloads of a member are replaced by others. -/
theorem replaces_overloads {overloads : List Overload} (hcome : ∀ y ∈ overloadReferences overloads,
      y ∈ overloadReferences ((c.members.get? name).getD []) ∨ y ∈ new)
    (hgo : ∀ y ∈ overloadReferences ((c.members.get? name).getD []),
      y ∈ overloadReferences overloads ∨ y ∈ old)
    (hnew : ∀ y ∈ new, y ∈ overloadReferences overloads)
    (hold : ∀ y ∈ old, y ∈ overloadReferences ((c.members.get? name).getD [])) :
    Replaces (fun d => { d with members := d.members.put name overloads }) c new old := by
  refine .of_sort c .member (fun _ => rfl) (fun _ => rfl) ?_ ?_ ?_
    (fun y hy => mem_linked_member_put c (hnew y hy))
    (fun y hy => mem_linked_member_of_get? c (hold y hy))
  · intro other ho
    cases other <;> trivial
  · intro y hy
    obtain ⟨n, l, hn, hl⟩ := mem_linked_member.mp hy
    rcases mem_entries_put.mp hn with ⟨_, rfl⟩ | ⟨_, hn⟩
    · exact (hcome y hl).imp_left (mem_linked_member_of_get? c)
    · exact Or.inl (mem_linked_member.mpr ⟨n, l, hn, hl⟩)
  · intro y hy
    obtain ⟨n, l, hn, hl⟩ := mem_linked_member.mp hy
    by_cases hname : n = name
    · subst hname
      rw [← get?_eq_some_iff] at hn
      exact (hgo y (by rw [hn]; exact hl)).imp_left (mem_linked_member_put c)
    · exact Or.inl (mem_linked_member.mpr ⟨n, l, mem_entries_put.mpr (Or.inr ⟨hname, hn⟩), hl⟩)

omit c in
/-- An overload takes the place of another, or goes behind all. -/
theorem placeOverload_cases {overload : Overload} {index : Option Nat}
    {overloads placed : List Overload}
    {old : Option Overload} (h : Run.placeOverload overload index overloads = (old, placed)) :
    (∃ before o after, overloads = before ++ o :: after ∧ old = some o ∧
      placed = before ++ overload :: after) ∨
      (old = none ∧ placed = overloads ++ [overload]) := by
  unfold Run.placeOverload at h
  split at h
  · rename_i i o hplaced
    cases h
    obtain ⟨k, _, hk⟩ := Option.bind_eq_some_iff.mp hplaced
    obtain ⟨o', ho', heq⟩ := Option.map_eq_some_iff.mp hk
    cases heq
    obtain ⟨hlt, hget⟩ := List.getElem?_eq_some_iff.mp ho'
    refine Or.inl ⟨overloads.take i, o, overloads.drop (i + 1), ?_, rfl,
      List.set_eq_take_append_cons_drop .. ▸ ?_⟩
    · rw [← hget, List.getElem_cons_drop, List.take_append_drop]
    · rw [if_pos hlt]
  · cases h
    exact Or.inr ⟨rfl, rfl⟩

/-- One overload is put in its place, or behind the others. -/
theorem replaces_member {overload : Overload} {index : Option Nat} {placed : List Overload}
    {old : Option Overload}
    (h : Run.placeOverload overload index ((c.members.get? name).getD []) = (old, placed)) :
    Replaces (fun d => { d with members := d.members.put name placed }) c overload.references
      (old.elim [] Overload.references) := by
  rcases placeOverload_cases h with ⟨before, o, after, hlist, rfl, rfl⟩ | ⟨rfl, rfl⟩
  · have hall : ∀ (o : Overload) (y : Handle), y ∈ overloadReferences (before ++ o :: after) ↔
        y ∈ overloadReferences before ∨ y ∈ o.references ∨ y ∈ overloadReferences after := by
      simp [overloadReferences]
    refine replaces_overloads c ?_ ?_ ?_ ?_ <;> simp only [hlist, hall, Option.elim] <;> grind
  · have hall : ∀ (l : List Overload) (y : Handle), y ∈ overloadReferences (l ++ [overload]) ↔
        y ∈ overloadReferences l ∨ y ∈ overload.references := by
      simp [overloadReferences]
    refine replaces_overloads c ?_ ?_ ?_ ?_ <;> simp only [hall, Option.elim] <;> grind

theorem replaces_removeMember {overloads : List Overload}
    (hold : c.members.get? name = some overloads) :
    Replaces (fun d => { d with members := d.members.remove name }) c []
      (overloads.flatMap Overload.references) := by
  refine .of_sort c .member (fun _ => rfl) (fun _ => rfl) ?_ ?_ ?_ (fun _ h => nomatch h) ?_
  · intro other ho
    cases other <;> trivial
  · intro y hy
    obtain ⟨n, l, hn, hl⟩ := mem_linked_member.mp hy
    exact Or.inl (mem_linked_member.mpr ⟨n, l, (mem_entries_remove.mp hn).2, hl⟩)
  · intro y hy
    obtain ⟨n, l, hn, hl⟩ := mem_linked_member.mp hy
    by_cases hname : n = name
    · rw [hname, ← get?_eq_some_iff, hold] at hn
      cases hn
      exact Or.inr hl
    · exact Or.inl (mem_linked_member.mpr ⟨n, l, mem_entries_remove.mpr ⟨hname, hn⟩, hl⟩)
  · intro y hy
    exact mem_linked_member.mpr ⟨name, overloads, get?_eq_some_iff.mp hold, hy⟩

end Composite

end CompositeGraph
