/-
  MUTATIONS: changes to the links of one composite.

    1. MUTATIONS.  `Mutation`: members, type, imports and observers; which composite
                   is changed, and how.
    2. RUNS.       Each is the change followed by settling the links in
which it differs. -/
import CompositeGraph.Proofs.Links

namespace CompositeGraph

open Run Composite

/-! ## Mutations -/

/-- A change to what a composite is linked to by its members, its type, its imports or its
    observers. -/
inductive Mutation where
  | setMember (handle : Handle) (identifier : String) (overload : Overload) (placement : Placement)
  | removeMember (handle : Handle) (identifier : String)
  | setType (handle : Handle) (type : TypeTree)
  | setImport (handle : Handle) (name : String) (imported : Handle)
  | removeImport (handle : Handle) (name : String)
  | addObserver (handle : Handle) (observer : Observer)
  | removeObserver (handle : Handle) (identifier : String)

theorem Run.store_bind_apply {α : Type} (f : Store → Run α) (m : Machine) :
    (Run.store >>= f) m = f m.store m := rfl

namespace Mutation

/-- Carries a mutation out. -/
def run (r : Rules) : Mutation → Run Unit
  | .setMember handle identifier overload placement => do
    let _ ← Run.setMember r handle identifier overload placement
  | .removeMember handle identifier => Run.removeMember r handle identifier
  | .setType handle type => Run.setType r handle type
  | .setImport handle name imported => Run.setImport r handle name imported
  | .removeImport handle name => Run.removeImport r handle name
  | .addObserver handle observer => Run.addObserver r handle observer
  | .removeObserver handle identifier => Run.removeObserver r handle identifier

/-- The handles that a mutation stores. -/
def stored : Mutation → List Handle
  | .setMember _ _ overload _ => overload.references
  | .setType _ type => type.references
  | .setImport _ _ imported => [imported]
  | .addObserver _ observer => [observer.function]
  | _ => []

/-- The composite whose links a mutation changes. -/
def target : Mutation → Handle
  | .setMember handle _ _ placement => (placement.target handle).1
  | .removeMember handle _ => handle
  | .setType handle _ => handle
  | .setImport handle _ _ => handle
  | .removeImport handle _ => handle
  | .addObserver handle _ => handle
  | .removeObserver handle _ => handle

/-- What a mutation makes of the composite. -/
def change : Mutation → Composite → Composite
  | .setMember handle identifier overload placement, c =>
    let overloads := (c.members.get? identifier).getD []
    { c with members :=
        c.members.put identifier (placeOverload overload (placement.target handle).2 overloads).2 }
  | .removeMember _ identifier, c => { c with members := c.members.remove identifier }
  | .setType _ type, c => { c with type }
  | .setImport _ name imported, c => { c with imports := c.imports.put name imported }
  | .removeImport _ name, c => { c with imports := c.imports.remove name }
  | .addObserver _ observer, c => { c with observers := c.observers ++ [observer] }
  | .removeObserver _ identifier, c =>
    { c with observers := c.observers.filter fun observer => observer.identifier != identifier }

/-- The store with the new links, before anything is listed or collected. -/
def applied (mutation : Mutation) (s : Store) : Store := s.modify mutation.target mutation.change

/-! ## Runs -/

theorem applied_of_stale {mutation : Mutation} {s : Store} (h : s.get? mutation.target = none) :
    mutation.applied s = s := Store.modify_eq_self fun _ hc => nomatch h.symm.trans hc

/-- A mutation changes nothing, or it changes links of its target and settles them,
    the new before the old. -/
theorem run_cases (mutation : Mutation) (m : Machine) :
    (mutation.applied m.store = m.store ∧ ∀ r, mutation.run r m = .ok ((), m)) ∨
      ∃ c f new old, m.store.get? mutation.target = some c ∧ c.Replaces f new old ∧
        f c = mutation.change c ∧
        (∀ y ∈ new, y ∈ mutation.stored) ∧ ∀ r, mutation.run r m = (do
          modifyComposite mutation.target f
          (new ++ old).forM (retainOrRelease r mutation.target)) m := by
  have hmissing : ∀ {old new : List Handle}, ∀ y ∈ missingFrom old new, y ∈ new :=
    fun y hy => (mem_missingFrom.mp hy).1
  cases mutation with
  | setMember handle identifier overload placement =>
    cases hget : m.store.get? (placement.target handle).1 with
    | none =>
      refine Or.inl ⟨applied_of_stale hget, fun r => ?_⟩
      rw [run, Run.setMember, bind_assoc, store_bind_apply, hget]
      rfl
    | some c =>
      cases hplace : placeOverload overload (placement.target handle).2
        ((c.members.get? identifier).getD []) with
      | mk old placed =>
        refine Or.inr ⟨c, _, _, _, hget, (replaces_member c hplace).reconciled, ?_,
          hmissing, fun r => ?_⟩
        · rw [change, hplace]
        · rw [run, Run.setMember, bind_assoc, store_bind_apply, hget]
          dsimp only
          rw [hplace]
          simp only [bind_assoc, pure_bind, bind_pure_unit]
          rfl
  | removeMember handle identifier =>
    cases hget : (m.store.get? handle).bind fun composite => composite.members.get? identifier with
    | none =>
      refine Or.inl ⟨Store.modify_eq_self fun c hc => ?_, fun r => ?_⟩
      · have hc : m.store.get? handle = some c := hc
        rw [hc, Option.bind_some] at hget
        rw [change, Assoc.remove_eq_self hget]
      · rw [run, Run.removeMember, store_bind_apply, hget]
        rfl
    | some overloads =>
      obtain ⟨c, hc, hold⟩ := Option.bind_eq_some_iff.mp hget
      refine Or.inr ⟨c, _, _, _, hc, (replaces_removeMember c hold).reconciled, rfl,
        hmissing, fun r => ?_⟩
      rw [run, Run.removeMember, store_bind_apply, hget]
      rfl
  | setType handle type =>
    cases hget : m.store.get? handle with
    | none =>
      refine Or.inl ⟨applied_of_stale hget, fun r => ?_⟩
      rw [run, Run.setType, store_bind_apply, hget]
      rfl
    | some c =>
      refine Or.inr ⟨c, _, _, _, hget, (replaces_type c type).reconciled, rfl,
        hmissing, fun r => ?_⟩
      rw [run, Run.setType, store_bind_apply, hget]
      rfl
  | setImport handle name imported =>
    cases hget : m.store.get? handle with
    | none =>
      refine Or.inl ⟨applied_of_stale hget, fun r => ?_⟩
      rw [run, Run.setImport, store_bind_apply, hget]
      rfl
    | some c =>
      refine Or.inr ⟨c, _, _, _, hget, (replaces_import c name imported).reconciled, rfl,
        hmissing, fun r => ?_⟩
      rw [run, Run.setImport, store_bind_apply, hget]
      rfl
  | removeImport handle name =>
    cases hget : (m.store.get? handle).bind fun composite => composite.imports.get? name with
    | none =>
      refine Or.inl ⟨Store.modify_eq_self fun c hc => ?_, fun r => ?_⟩
      · have hc : m.store.get? handle = some c := hc
        rw [hc, Option.bind_some] at hget
        rw [change, Assoc.remove_eq_self hget]
      · rw [run, Run.removeImport, store_bind_apply, hget]
        rfl
    | some old =>
      obtain ⟨c, hc, hold⟩ := Option.bind_eq_some_iff.mp hget
      refine Or.inr ⟨c, _, _, _, hc, replaces_removeImport c hold, rfl, nofun, fun r => ?_⟩
      rw [run, Run.removeImport, store_bind_apply, hget]
      simp [target]
  | addObserver handle observer =>
    cases hget : m.store.get? handle with
    | none =>
      refine Or.inl ⟨applied_of_stale hget, fun r => ?_⟩
      rw [run, Run.addObserver, store_bind_apply, Store.contains, hget]
      rfl
    | some c =>
      refine Or.inr ⟨c, _, _, _, hget, replaces_addObserver c observer, rfl,
        fun _ => id, fun r => ?_⟩
      rw [run, Run.addObserver, store_bind_apply, Store.contains, hget]
      simp [target]
  | removeObserver handle identifier =>
    cases hget : m.store.get? handle with
    | none =>
      refine Or.inl ⟨applied_of_stale hget, fun r => ?_⟩
      rw [run, Run.removeObserver, store_bind_apply, hget]
      rfl
    | some c =>
      cases hpart : c.observers.partition fun observer => observer.identifier == identifier with
      | mk removed kept =>
        refine Or.inr ⟨c, _, _, _, hget, replaces_removeObserver c hpart, ?_, nofun, fun r => ?_⟩
        · rw [List.partition_eq_filter_filter] at hpart
          cases hpart
          rfl
        · rw [run, Run.removeObserver, store_bind_apply, hget]
          dsimp only
          rw [hpart]
          simp [target]

end Mutation

end CompositeGraph
