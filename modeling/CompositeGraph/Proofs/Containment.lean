/-
  CONTAINMENT: which handles of a restored store name its own slots.

  A snapshot may be written by hand, so a handle in it may name a slot that is not there.  Such a
  handle is stale at first, and as slots are handed out in order it names a composite later on: one
  that has nothing to do with it.  Restoring refuses a snapshot in which a composite is linked to
  such a slot.  What it looks at are the links that retain, so three sorts of place are left out:
  the slot that says what a composite is, the retainers, and the types that are held as values.
  Handles in all other places stay stale if they are.

    1. PLACES.       `Composite.Mentions`: every place in a composite where a handle can stand.
    2. REFERENCES.   The handles a composite is linked to are those in all places but the three.
    3. SNAPSHOTS.    When a text is restored, and what then becomes of stale handles.
-/
import CompositeGraph.Proofs.Lifespans
import CompositeGraph.Proofs.Snapshots

namespace CompositeGraph

open Run

/-! ## Places -/

namespace Value

variable {h : Handle} {held : Bool}

/-- What holds of values that are no dictionaries, and of a dictionary if it holds of its keys and
    values, holds of all values. -/
theorem rec_entries {P : Value → Prop}
    (plain : ∀ value : Value, value.primitive ≠ .dictionary → P value)
    (dictionary : ∀ entries : Dictionary,
      (∀ entry ∈ entries, P entry.1 ∧ ∀ value, entry.2 = some value → P value) →
      P (.dictionary entries)) (value : Value) : P value :=
  @Value.rec P (fun entries => ∀ entry ∈ entries, P entry.1 ∧ ∀ value,
    entry.2 = some value → P value)
    (fun entry => P entry.1 ∧ ∀ value, entry.2 = some value → P value)
    (fun o => ∀ value, o = some value → P value)
    (fun _ => plain _ Primitive.noConfusion) (fun _ => plain _ Primitive.noConfusion)
    (fun _ => plain _ Primitive.noConfusion) (fun _ => plain _ Primitive.noConfusion)
    (fun entries ih => dictionary entries ih) (fun _ => plain _ Primitive.noConfusion)
    (fun _ => plain _ Primitive.noConfusion) (fun _ => plain _ Primitive.noConfusion)
    (fun _ h => absurd h List.not_mem_nil)
    (fun _ _ hentry hentries => List.forall_mem_cons.mpr ⟨hentry, hentries⟩)
    (fun _ _ hkey hvalue => ⟨hkey, hvalue⟩) (fun _ h => absurd h (Option.some_ne_none _).symm)
    (fun _ hvalue _ h => Option.some.inj h ▸ hvalue) value

/-- A handle stands in a value: as such, or, as told by `held`, in a type that is
    held as a value. -/
inductive Mentions : Value → (held : Bool) → Handle → Prop
  | pointer (h : Handle) : Mentions (.pointer h) false h
  | reference (h : Handle) : Mentions (.reference h) false h
  | type {type : TypeTree} {h : Handle} : h ∈ type.references → Mentions (.type type) true h
  | key {entries : Dictionary} {entry : Value × Option Value} {held : Bool} {h : Handle} :
    entry ∈ entries → Mentions entry.1 held h → Mentions (.dictionary entries) held h
  | entry {entries : Dictionary} {entry : Value × Option Value} {value : Value}
    {held : Bool} {h : Handle} :
    entry ∈ entries → entry.2 = some value → Mentions value held h →
    Mentions (.dictionary entries) held h

theorem mem_entryHandles {entries : Dictionary} :
    h ∈ entryHandles entries ↔
      ∃ entry ∈ entries, h ∈ entry.1.handles ∨ ∃ value,
        entry.2 = some value ∧ h ∈ value.handles := by
  induction entries with
  | nil => simp [entryHandles]
  | cons entry rest ih =>
    obtain ⟨key, _ | value⟩ := entry <;> simp [entryHandles, optionHandles, ih, or_assoc]

/-- The handles of a value are those that stand in it outside of types. -/
theorem mem_handles_iff {value : Value} : h ∈ value.handles ↔ value.Mentions false h := by
  constructor
  · induction value using rec_entries with
    | plain value hplain =>
      intro hmem
      cases value with
      | pointer x => exact List.mem_singleton.mp hmem ▸ .pointer h
      | reference x => exact List.mem_singleton.mp hmem ▸ .reference h
      | dictionary entries => exact absurd rfl hplain
      | _ => exact absurd hmem List.not_mem_nil
    | dictionary entries ih =>
      intro hmem
      rw [handles] at hmem
      obtain ⟨entry, hentry, hkey | ⟨value, hvalue, hmem⟩⟩ := mem_entryHandles.mp hmem
      · exact .key hentry ((ih entry hentry).1 hkey)
      · exact .entry hentry hvalue ((ih entry hentry).2 value hvalue hmem)
  · intro hmentions
    generalize hheld : false = held at hmentions
    induction hmentions with
    | pointer h => exact List.mem_singleton_self h
    | reference h => exact List.mem_singleton_self h
    | type => cases hheld
    | key hentry _ ih =>
      rw [handles]
      exact mem_entryHandles.mpr ⟨_, hentry, .inl (ih hheld)⟩
    | entry hentry hvalue _ ih =>
      rw [handles]
      exact mem_entryHandles.mpr ⟨_, hentry, .inr ⟨_, hvalue, ih hheld⟩⟩

end Value

/-- A sort of place in a composite where a handle can stand. -/
inductive Site where
  | slot (slot : Slot)
  | retainer
  | type
  | imported
  | memberType
  | memberValue
  /-- Within a type that a member holds as a value. -/
  | heldType
  | memberObserver
  | observer
  deriving DecidableEq

/-- Whether restoring looks there. -/
def Site.isChecked : Site → Bool
  | .slot .currentType => false
  | .retainer => false
  | .heldType => false
  | _ => true

/-- A handle stands in a composite. -/
inductive Composite.Mentions (c : Composite) : Site → Handle → Prop
  | slot {slot : Slot} {h : Handle} : c.links.get slot = some h → Mentions c (.slot slot) h
  | retainer {h : Handle} : h ∈ c.links.retainers → Mentions c .retainer h
  | type {h : Handle} : h ∈ c.type.references → Mentions c .type h
  | imported {h : Handle} : h ∈ c.imports.values → Mentions c .imported h
  | memberType {name : String} {overloads : List Overload} {o : Overload} {h : Handle} :
    (name, overloads) ∈ c.members.entries → o ∈ overloads → h ∈ o.type.references →
    Mentions c .memberType h
  | memberValue {name : String} {overloads : List Overload} {o : Overload} {value : Value}
    {held : Bool} {h : Handle} :
    (name, overloads) ∈ c.members.entries → o ∈ overloads → o.value = some value →
    value.Mentions held h →
      Mentions c (if held then .heldType else .memberValue) h
  | memberObserver {name : String} {overloads : List Overload} {o : Overload}
    {observer : Observer} :
    (name, overloads) ∈ c.members.entries → o ∈ overloads → observer ∈ o.observers →
      Mentions c .memberObserver observer.function
  | observer {observer : Observer} : observer ∈ c.observers → Mentions c .observer observer.function

/-! ## References -/

theorem Overload.mem_references {o : Overload} {h : Handle} :
    h ∈ o.references ↔ h ∈ o.type.references ∨
      (∃ value, o.value = some value ∧ value.Mentions false h) ∨
      ∃ observer ∈ o.observers, observer.function = h := by
  have hvalue : h ∈ Value.optionHandles o.value ↔ ∃ value,
    o.value = some value ∧ value.Mentions false h := by
    cases o.value with
    | none => simp [Value.optionHandles]
    | some value => simp [Value.optionHandles, Value.mem_handles_iff]
  rw [references, List.mem_append, List.mem_append, hvalue, List.mem_map, or_assoc]

theorem Composite.mem_memberReferences {members : Assoc (List Overload)} {h : Handle} :
    h ∈ memberReferences members ↔
      ∃ name overloads, (name, overloads) ∈ members.entries ∧ ∃ o ∈ overloads,
        h ∈ o.references := by
  simp only [memberReferences, List.mem_flatMap, Prod.exists]

/-- A composite is linked to what stands in the places that are checked, and to nothing else. -/
theorem Composite.mem_references_iff {c : Composite} {h : Handle} :
    h ∈ c.references ↔ ∃ site : Site, site.isChecked = true ∧ c.Mentions site h := by
  simp only [references, List.mem_append, or_assoc, List.mem_filterMap, List.mem_map]
  constructor
  · rintro (⟨slot, hslot, hget⟩ | htype | himport | hmember | ⟨observer, hobserver, rfl⟩)
    · refine ⟨.slot slot, ?_, .slot hget⟩
      cases slot with
      | currentType => exact absurd hslot (by decide)
      | _ => rfl
    · exact ⟨.type, rfl, .type htype⟩
    · exact ⟨.imported, rfl, .imported himport⟩
    · obtain ⟨name, overloads, hentry, o, ho, hmem⟩ := mem_memberReferences.mp hmember
      rcases Overload.mem_references.mp hmem with
        htype | ⟨value, hvalue, hmentions⟩ | ⟨observer, hobserver, rfl⟩
      · exact ⟨.memberType, rfl, .memberType hentry ho htype⟩
      · exact ⟨.memberValue, rfl, .memberValue hentry ho hvalue hmentions⟩
      · exact ⟨.memberObserver, rfl, .memberObserver hentry ho hobserver⟩
    · exact ⟨.observer, rfl, .observer hobserver⟩
  · rintro ⟨site, hchecked, hmentions⟩
    cases hmentions with
    | @slot slot _ hget =>
      refine .inl ⟨slot, ?_, hget⟩
      cases slot with
      | currentType => cases hchecked
      | _ => decide
    | retainer => cases hchecked
    | type htype => exact .inr (.inl htype)
    | imported himport => exact .inr (.inr (.inl himport))
    | memberType hentry ho htype =>
      exact .inr (.inr (.inr (.inl (mem_memberReferences.mpr
        ⟨_, _, hentry, _, ho, Overload.mem_references.mpr (.inl htype)⟩))))
    | @memberValue _ _ _ _ held _ hentry ho hvalue hmentions =>
      cases held with
      | true => cases hchecked
      | false =>
        exact .inr (.inr (.inr (.inl (mem_memberReferences.mpr
          ⟨_, _, hentry, _, ho,
            Overload.mem_references.mpr (.inr (.inl ⟨_, hvalue, hmentions⟩))⟩))))
    | memberObserver hentry ho hobserver =>
      exact .inr (.inr (.inr (.inl (mem_memberReferences.mpr
        ⟨_, _, hentry, _, ho, Overload.mem_references.mpr (.inr (.inr ⟨_, hobserver, rfl⟩))⟩))))
    | observer hobserver => exact .inr (.inr (.inr (.inr ⟨_, hobserver, rfl⟩)))

/-! ## Snapshots -/

/-- What stands in a place that is checked names a slot of the store. -/
def Store.Contained (s : Store) : Prop :=
  ∀ a c, s.get? a = some c → ∀ (site : Site) (h : Handle),
    site.isChecked = true → c.Mentions site h → h.index < s.size

/-- A handle that names no composite, but has a slot, names none after a module was run. -/
theorem Store.get?_eq_none_of_runModule {s : Store} {h : Handle} (hlt : h.index < s.size)
    (hnone : s.get? h = none)
    {preferences : Preferences} {tokens : Array Token} {depth : Nat} {tree : Node} {m : Machine}
    (hrun : runModule (rules depth) tree { Machine.withStore s preferences with tokens } =
      .ok ((), m)) :
    m.store.get? h = none := by
  have hover : s.IsOver h := by
    refine ⟨hlt, ?_⟩
    rw [Store.isAlive, hnone]
    rfl
  have hleaves :=
    runModule_leavesOver (m := { Machine.withStore s preferences with tokens }) hover depth tree
  exact (hleaves.post hrun).2 hnone

namespace Snapshot

variable {store : Store}

theorem firstDangling_eq_none_iff : firstDangling store = none ↔ store.Contained := by
  constructor
  · intro hnone a c hget site h hchecked hmentions
    rw [firstDangling, List.findSome?_eq_none_iff] at hnone
    have hentry := hnone (a, c) (Store.mem_live.mpr hget)
    rw [Option.map_eq_none_iff, List.find?_eq_none] at hentry
    have hinside := hentry h (Composite.mem_references_iff.mpr ⟨site, hchecked, hmentions⟩)
    simpa using hinside
  · intro hcontained
    refine firstDangling_eq_none fun a c hget h hmem => ?_
    obtain ⟨site, hchecked, hmentions⟩ := Composite.mem_references_iff.mp hmem
    exact hcontained a c hget site h hchecked hmentions

theorem toStore_eq_ok_iff {snapshot : Snapshot} :
    snapshot.toStore = .ok store ↔
      snapshot.version = snapshotVersion ∧ ⟨snapshot.cells.toArray⟩ = store ∧ store.Contained := by
  unfold toStore
  by_cases hversion : snapshot.version = snapshotVersion
  · rw [if_neg (not_not_intro hversion)]
    dsimp only
    cases hdangling : firstDangling ⟨snapshot.cells.toArray⟩ with
    | none =>
      constructor
      · intro h
        cases h
        exact ⟨hversion, rfl, firstDangling_eq_none_iff.mp hdangling⟩
      · exact fun h => congrArg Except.ok h.2.1
    | some entry =>
      constructor
      · intro h
        cases h
      · rintro ⟨-, rfl, hcontained⟩
        rw [firstDangling_eq_none_iff.mpr hcontained] at hdangling
        cases hdangling
  · rw [if_pos hversion]
    constructor
    · intro h
      cases h
    · exact fun h => absurd h.1 hversion

/-- A text is restored if it is a snapshot of the one version in which all that stands in a checked
    place names a slot; nothing else is asked of its handles. -/
theorem restore_eq_ok_iff {text : String} :
    restore text = .ok store ↔ ∃ snapshot : Snapshot, decoder.run text = .ok snapshot ∧
      snapshot.version = snapshotVersion ∧ ⟨snapshot.cells.toArray⟩ = store ∧ store.Contained := by
  rw [restore]
  cases hrun : decoder.run text with
  | error fault =>
    constructor
    · intro h
      cases h
    · rintro ⟨_, h, -⟩
      cases h
  | ok snapshot =>
    refine toStore_eq_ok_iff.trans ⟨fun h => ⟨snapshot, rfl, h⟩, ?_⟩
    rintro ⟨_, hsame, h⟩
    cases hsame
    exact h

/-- What is restored is contained in itself, the three sorts of place aside that are not checked.
    So a handle in any other place that names nothing then names nothing after any run either. -/
theorem restored_contained (text : String) (store : Store) :
    (restore text = .ok store ↔ ∃ snapshot : Snapshot, decoder.run text = .ok snapshot ∧
      snapshot.version = snapshotVersion ∧ ⟨snapshot.cells.toArray⟩ = store ∧ store.Contained) ∧
    (restore text = .ok store → ∀ a c, store.get? a = some c → ∀ (site : Site) (h : Handle),
      site.isChecked = true → c.Mentions site h → h.index < store.size ∧
        (store.get? h = none → ∀ preferences tokens depth tree m,
          runModule (rules depth) tree { Machine.withStore store preferences with tokens } =
            .ok ((), m) →
            m.store.get? h = none)) := by
  refine ⟨restore_eq_ok_iff, fun hrestored a c hget site h hchecked hmentions => ?_⟩
  obtain ⟨_, _, _, _, hcontained⟩ := restore_eq_ok_iff.mp hrestored
  have hlt := hcontained a c hget site h hchecked hmentions
  exact ⟨hlt, fun hnone _ _ _ _ _ hrun => Store.get?_eq_none_of_runModule hlt hnone hrun⟩

/-- A type with a slot beyond the next that is free. -/
def strayType : TypeTree := .ofPart { reference := some ⟨2, 0⟩ }

/-- An array that holds the type as a value. -/
def strayMember : Overload :=
  { type := .empty, value := some (.dictionary [(.integer 0, some (.type strayType))]) }

def strayNamespace : Composite :=
  { Composite.fresh (some "Global") (.ofKind .namespace) with
    links := { currentType := some ⟨2, 0⟩, retainers := [⟨2, 0⟩] }
    imports := Assoc.empty.put "gone" ⟨1, 0⟩
    members := Assoc.empty.put "types" [strayMember] }

/-- The outermost namespace imports what has left a gap.  Its `Self` slot, its retainers and a type
    that it holds name a slot that is not there. -/
def adrift : Store := ⟨#[⟨0, some strayNamespace⟩, ⟨1, none⟩]⟩

theorem writable_strayNamespace : strayNamespace.Writable := by
  have hfits : (⟨1, 0⟩ : Handle).Fits ∧ (⟨2, 0⟩ : Handle).Fits := by decide
  have htype : strayType.Writable := by
    simp only [TypeTree.Writable, strayType, TypeTree.ofPart, List.forall_mem_singleton]
    exact ⟨by simp, by simp [hfits], by simp⟩
  have hmember : strayMember.Writable := by
    refine ⟨by simp [TypeTree.Writable, strayMember, TypeTree.empty], ?_, by simp [strayMember]⟩
    rintro value ⟨⟩
    refine .dictionary ?_ ?_
    · simpa using .integer 0
    · simpa using .type htype
  refine ⟨fun slot => ?_, ?_, ?_, ?_, ?_, ?_, ?_⟩
  · cases slot <;> simp [strayNamespace, Links.get, hfits]
  · simp [strayNamespace, hfits]
  · exact List.forall_mem_singleton.mpr ⟨by simp, by simp, by simp⟩
  · simp [strayNamespace, Statements.Writable, Composite.fresh, Statements.nodes]
  · simp [strayNamespace, Assoc.put, Assoc.empty, Assoc.place, hfits]
  · simpa [strayNamespace, Assoc.put, Assoc.empty, Assoc.place] using hmember
  · simp [strayNamespace, Composite.fresh]

theorem restore_adrift : restore (save adrift) = .ok adrift := by
  have hwritable : adrift.Writable := by
    simp only [Store.Writable, adrift, List.forall_mem_cons, List.not_mem_nil, false_implies,
      implies_true, and_true]
    refine ⟨⟨by decide, ?_⟩, by decide, by simp⟩
    rintro composite ⟨⟩
    exact writable_strayNamespace
  have hreferences : ∀ entry ∈ adrift.live, ∀ reference ∈ entry.2.references,
    reference.index < adrift.size := by
    decide
  have hfloats : (ofStore adrift).toJson.floats = [] := by decide +kernel
  rw [restore, run_save hwritable (by decide +kernel)]
  · refine toStore_ofStore (firstDangling_eq_none ?_)
    exact fun handle composite hget => hreferences (handle, composite) (Store.mem_live.mpr hget)
  · rw [hfloats]
    exact fun _ h => absurd h List.not_mem_nil

/-- A run of no statements at all declares the native functions: the first takes the slot that was
    not there. -/
theorem exists_run_adrift :
    ∃ m, runModule (rules 5) (.bare (.module [])) (.withStore adrift {}) = .ok ((), m) ∧
    (m.store.get? ⟨2, 0⟩).bind (·.title) = some "print" := by
  have htitle : (runModule (rules 5) (.bare (.module [])) (.withStore adrift {})).toOption.map
      (fun result => (result.2.store.get? ⟨2, 0⟩).bind (·.title)) =
      some (some "print") := by decide +kernel
  obtain ⟨⟨⟩, m, hrun, hm⟩ := Run.exists_ok_of_map htitle
  exact ⟨m, hrun, hm⟩

/-- What is imported stays gone. -/
theorem restored_contained_adrift :
    restore (save adrift) = .ok adrift ∧ strayNamespace.Mentions .imported ⟨1, 0⟩ ∧
      adrift.get? ⟨1, 0⟩ = none ∧
      ∃ m, runModule (rules 5) (.bare (.module [])) (.withStore adrift {}) = .ok ((), m) ∧
        m.store.get? ⟨1, 0⟩ = none := by
  have himported : strayNamespace.Mentions .imported ⟨1, 0⟩ := .imported (List.mem_singleton_self _)
  obtain ⟨m, hrun, -⟩ := exists_run_adrift
  obtain ⟨-, hstale⟩ :=
    (restored_contained (save adrift) adrift).2 restore_adrift ⟨0, 0⟩ strayNamespace rfl .imported
    ⟨1, 0⟩ rfl himported
  exact ⟨restore_adrift, himported, rfl, m, hrun, hstale rfl {} #[] 5 _ m hrun⟩

/-- What stands in a place that is not checked names nothing at first, and a native
    function after a run. -/
theorem restored_not_contained :
    restore (save adrift) = .ok adrift ∧ adrift.get? ⟨0, 0⟩ = some strayNamespace ∧
      (∀ site : Site, site.isChecked = false → strayNamespace.Mentions site ⟨2, 0⟩) ∧
      adrift.get? ⟨2, 0⟩ = none ∧
      ∃ m, runModule (rules 5) (.bare (.module [])) (.withStore adrift {}) = .ok ((), m) ∧
        (m.store.get? ⟨2, 0⟩).bind (·.title) = some "print" := by
  refine ⟨restore_adrift, rfl, fun site hsite => ?_, rfl, exists_run_adrift⟩
  cases site with
  | slot slot =>
    cases slot with
    | currentType => exact .slot rfl
    | _ => cases hsite
  | retainer => exact .retainer (List.mem_singleton_self _)
  | heldType =>
    have htype : Value.Mentions (.type strayType) true ⟨2, 0⟩ := .type (List.mem_singleton_self _)
    have hvalue := Value.Mentions.entry
      (List.mem_singleton_self (Value.integer 0, some (.type strayType))) rfl htype
    exact .memberValue (List.mem_singleton_self _) (List.mem_singleton_self strayMember) rfl hvalue
  | _ => cases hsite

end Snapshot

end CompositeGraph
