/-
  STACKS: what becomes of scopes and frames.

  A change to the store leaves scopes and frames alone, even if it destroys composites and runs
  their deinitializers.  Evaluation does so up to the innermost frame, where it leaves a transfer
  under way exactly if it unwinds.  All of this holds whatever the store looks like, so the
  discipline to keep is the one that asks nothing.

    1. BARE.     The discipline that asks nothing, kept at every depth.
    2. STACKS.   Evaluating, executing, calling and running modules from any machine.
-/
import CompositeGraph.Proofs.Plain

namespace CompositeGraph

open Run

/-! ## Bare -/

namespace Discipline

/-- The discipline that asks nothing. -/
def bare : Discipline where
  holds _ := True
  leads _ _ := True
  known _ _ := True
  strict := False
  leads_refl _ := trivial
  leads_trans _ _ := trivial
  known_mono _ _ := trivial
  known_there _ := trivial
  known_named _ _ _ := trivial
  sound_stored hstrict := hstrict.elim

instance : bare.Storewise := ⟨rfl⟩

theorem knows_bare {α : Type} [Held α] {s : Store} {a : α} : bare.Knows s a :=
  knows_of_lax id fun _ => trivial

theorem fits_bare (m : Machine) : bare.Fits m := ⟨trivial, fun _ _ => knows_bare, trivial⟩

theorem permits_bare : bare.PermitsEnding where
  known _ _ := trivial
  amend _ _ _ _ := ⟨trivial, trivial⟩
  assign _ _ _ _ _ := ⟨trivial, trivial⟩
  add _ _ _ _ := ⟨trivial, trivial⟩
  die _ _ := ⟨trivial, trivial⟩
  free _ _ := ⟨trivial, trivial⟩

end Discipline

open Discipline

theorem admits_bare {r : Rules} (hd : ∀ {m} h, bare.Keeps m (r.destroy h) (r.destroy h)) :
    bare.Admits r r :=
  permits_bare.admits (collecting_of_destroy hd)

/-- At every depth, the rules keep the bare discipline. -/
theorem obeys_bare (depth : Nat) :
    bare.Obeys (rules depth) (rules depth) ∧
      ∀ {m} h, bare.Keeps m ((rules depth).destroy h) ((rules depth).destroy h) :=
        permits_bare.obeys depth

theorem minds_bare (depth : Nat) : bare.Minds (rules depth) (rules depth) :=
  (admits_bare (obeys_bare depth).2).minds (obeys_bare depth).1

/-! ## Stacks -/

/-- What a flow that came to a result leaves behind: the scopes and all frames but the innermost as
    they were, and a transfer under way in that one exactly if it unwound. -/
structure StacksKept {α : Type} (m : Machine) (result : Except Unwind α) (m' : Machine) : Prop where
  scopes : m'.scopes = m.scopes
  depth : m'.control.depth = m.control.depth
  below : m'.control.frames.tail = m.control.frames.tail
  unwound : result = .error ⟨⟩ ↔ m'.control.isExplicit = true

theorem isOpen_of_isExplicit {c : Control} (hframe : c.frames ≠ []) (hidle : c.isExplicit = false) :
    IsOpen c := ⟨hframe, Option.isSome_eq_false_iff.mp hidle |> Option.isNone_iff_eq_none.mp⟩

/-- A list that is not empty is as long as its tail and one. -/
theorem length_eq_of_tail_eq {α : Type} {l l' : List α} (hl : l ≠ []) (hl' : l' ≠ [])
    (h : l.tail = l'.tail) : l.length = l'.length := by
  have hlength : l.tail.length = l'.tail.length := congrArg List.length h
  have hpos := List.length_pos_iff.mpr hl
  have hpos' := List.length_pos_iff.mpr hl'
  rw [List.length_tail, List.length_tail] at hlength
  omega

theorem stacksKept_of_lands {α : Type} [Held α] {K : TransferKind → Prop} {m m' : Machine}
    {result : Except Unwind α} (hframe : m.control.frames ≠ []) (h : bare.Lands K m result m') :
    StacksKept m result m' := by
  cases result with
  | ok a =>
    obtain ⟨hopen, _⟩ := h.ends
    refine ⟨h.scopes, length_eq_of_tail_eq hopen.1 hframe h.below, h.below, ?_⟩
    simp [Control.isExplicit, hopen.2]
  | error u =>
    obtain ⟨k, hk, _⟩ := h.ends
    refine ⟨h.scopes, length_eq_of_tail_eq (frames_ne_nil_of_kind? hk) hframe h.below, h.below, ?_⟩
    simp [Control.isExplicit, hk]

/-- From a machine whose innermost frame is there and holds no explicit transfer, evaluating a node,
    executing statements and calling a function keep the stacks, and what gets out of a call is a
    throw or an abort.  A module gives back all scopes and frames, from any machine. -/
theorem evaluation_keeps_stacks (depth : Nat) :
    (∀ m : Machine, m.control.frames ≠ [] → m.control.isExplicit = false →
      (∀ node scope result m', ((rules depth).eval node scope).outcome m = .ok (result, m') →
        StacksKept m result m') ∧
      (∀ scope nodes result m', (executeStatements (rules depth) scope nodes).outcome m =
        .ok (result, m') → StacksKept m result m') ∧
      (∀ call result m', ((rules depth).call call).outcome m = .ok (result, m') →
        StacksKept m result m' ∧
          (result = .error ⟨⟩ → m'.control.kind? = some .throw ∨ m'.control.kind? = some .abort))) ∧
    (∀ m tree m', runModule (rules depth) tree m = .ok ((), m') →
      m'.scopes = m.scopes ∧ m'.control = m.control) := by
  obtain ⟨ho, hd⟩ := obeys_bare depth
  have ha := admits_bare hd
  constructor
  · intro m hframe hidle
    have hopen := isOpen_of_isExplicit hframe hidle
    refine ⟨?_, ?_, ?_⟩
    · intro node scope result m' h
      exact stacksKept_of_lands hframe ((ho.eval node trivial (fits_bare m) hopen).post h)
    · intro scope nodes result m' h
      exact stacksKept_of_lands hframe
        ((executeStatements_flows (ha.minds ho) nodes trivial (fits_bare m) hopen).post h)
    · intro call result m' h
      have hlands := (ho.call knows_bare (fits_bare m) hopen).post h
      refine ⟨stacksKept_of_lands hframe hlands, ?_⟩
      rintro rfl
      obtain ⟨k, hk, rfl | rfl⟩ := hlands.ends
      · exact Or.inl hk
      · exact Or.inr hk
  · intro m tree m' h
    have hafter := (runModule_keeps ha ho tree (fits_bare m)).post h
    exact ⟨hafter.scopes, hafter.control⟩

/-- A throw, two frames deep. -/
theorem evaluation_keeps_stacks_throwing :
    let m : Machine := { control := ⟨[none, none]⟩ }
    let after : Machine := { control := ⟨[some ⟨some .throw, none⟩, none]⟩ }
    m.control.frames ≠ [] ∧ m.control.isExplicit = false ∧
      ((rules 2).eval (.bare (.throwStatement none)) ⟨0, 0⟩).outcome m = .ok (.error ⟨⟩, after) ∧
      StacksKept m (Except.error ⟨⟩ : Except Unwind (Option Value)) after := by
  refine ⟨by simp, rfl, rfl, ?_⟩
  exact ((evaluation_keeps_stacks 2).1 _ (by simp) rfl).1
    (.bare (.throwStatement none)) ⟨0, 0⟩ _ _ rfl

end CompositeGraph
