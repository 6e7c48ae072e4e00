/-
  CHAINS: followed from any composite, a slot never leads back.

  Setting a slot of a composite changes one step of one chain.  A circle that was not there before
  has to take this step, so it is enough to look whether the chain comes back to that composite; if
  it does, nothing is changed at all.  `self` and `Self` are not chains: most
  composites are their own `self`.

    1. CHAINS.      `Store.Next`, one step along a slot; `Store.Acyclic`, which is decidable.
    2. RETURNING.   `returns` finds every circle, within as many steps as there
                    are slots in the store.
    3. ASSIGNING.   Which assignments are rejected, and what becomes of the others.
    4. ACTIONS.     `Action`: all that can be done to a machine; no sequence
                    of them closes a circle.
-/
import CompositeGraph.Proofs.Plain
import CompositeGraph.Proofs.Reachability
import CompositeGraph.Proofs.Symmetry
import Mathlib.Logic.Relation

namespace CompositeGraph

open Run Relation

/-! ## Chains -/

namespace Store

variable {s : Store} {slot : Slot} {h : Handle}

/-- One step along a slot. -/
def Next (s : Store) (slot : Slot) (a b : Handle) : Prop := s.link? slot a = some b

/-- A handle is met when a slot is followed from another. -/
def OnChain (s : Store) (slot : Slot) (start h : Handle) : Prop :=
  ReflTransGen (s.Next slot) start h

/-- Followed from any composite, no chain meets a composite twice. -/
def Acyclic (s : Store) : Prop := ∀ slot, isChain slot = true → ∀ h, ¬TransGen (s.Next slot) h h

/-- Somewhere along the chain a circle begins. -/
def RunsInCircle (s : Store) (slot : Slot) (start : Handle) : Prop :=
  ∃ x, s.OnChain slot start x ∧ TransGen (s.Next slot) x x

theorem Acyclic.not_runsInCircle (hs : s.Acyclic) (hslot : isChain slot = true) :
    ¬s.RunsInCircle slot h :=
  fun ⟨x, _, hx⟩ => hs slot hslot x hx

theorem link?_of_get? {c : Composite} (hget : s.get? h = some c) :
    s.link? slot h = c.links.get slot := by
  simp [link?, hget]

theorem link?_modify (h x : Handle) (f : Composite → Composite) :
    (s.modify h f).link? slot x =
      if x = h then (s.get? h).bind fun c => (f c).links.get slot else s.link? slot x := by
  unfold link?
  rw [get?_modify]
  split
  · cases s.get? h <;> rfl
  · rfl

/-! ## Returning -/

/-- A chain that ends at once runs in no circle. -/
theorem not_runsInCircle_of_link?_eq_none (hend : s.link? slot h = none) :
    ¬s.RunsInCircle slot h := by
  have hstop : ∀ b, ¬s.Next slot h b := by
    intro b hb
    rw [Next, hend] at hb
    cases hb
  rintro ⟨x, hx, hcircle⟩
  rcases ReflTransGen.cases_head hx with rfl | ⟨b, hb, _⟩
  · obtain ⟨b, hb, _⟩ := TransGen.head'_iff.mp hcircle
    exact hstop b hb
  · exact hstop b hb

/-- Neither does one that is put before such a chain. -/
theorem not_runsInCircle_of_next {b : Handle} (hb : s.Next slot h b)
    (hend : ¬s.RunsInCircle slot b) : ¬s.RunsInCircle slot h := by
  have honly : ∀ b', s.Next slot h b' → b' = b := fun b' hb' => Option.some.inj (hb'.symm.trans hb)
  rintro ⟨x, hx, hcircle⟩
  rcases ReflTransGen.cases_head hx with rfl | ⟨b', hb', hx⟩
  · obtain ⟨b', hb', hback⟩ := TransGen.head'_iff.mp hcircle
    rw [honly b' hb'] at hback
    exact hend ⟨h, hback, hcircle⟩
  · rw [honly b' hb'] at hx
    exact hend ⟨x, hx, hcircle⟩

/-- What is found twice on the way lies on a circle. -/
theorem runsInCircle_of_returnsFrom {steps : Nat} {visited : List Handle}
    (hreturns : s.returnsFrom slot steps visited (some h) = true)
    (hvisited : ∀ v ∈ visited, TransGen (s.Next slot) v h) : s.RunsInCircle slot h := by
  induction steps generalizing h visited with
  | zero =>
    have hmem : h ∈ visited := by simpa [returnsFrom] using hreturns
    exact ⟨h, .refl, hvisited h hmem⟩
  | succ steps ih =>
    rw [returnsFrom, Bool.or_eq_true] at hreturns
    rcases hreturns with hmem | hreturns
    · exact ⟨h, .refl, hvisited h (by simpa using hmem)⟩
    split at hreturns
    · cases hreturns
    rename_i c hget
    cases hnext : c.links.get slot with
    | none =>
      rw [hnext] at hreturns
      cases steps <;> cases hreturns
    | some b =>
      rw [hnext] at hreturns
      have hstep : s.Next slot h b := (link?_of_get? hget).trans hnext
      have hvisited' : ∀ v ∈ h :: visited, TransGen (s.Next slot) v b := by
        intro v hv
        rcases List.mem_cons.mp hv with rfl | hv
        · exact .single hstep
        · exact (hvisited v hv).tail hstep
      obtain ⟨x, hx, hcircle⟩ := ih hreturns hvisited'
      exact ⟨x, hx.head hstep, hcircle⟩

/-- Where nothing is found twice, the chain comes to an end: there are no more
    composites than steps. -/
theorem not_runsInCircle_of_returnsFrom {steps : Nat} {visited : List Handle}
    (hreturns : s.returnsFrom slot steps visited (some h) = false) (hnodup : visited.Nodup)
    (hthere : ∀ v ∈ visited, s.contains v = true) (henough : s.size ≤ steps + visited.length) :
    ¬s.RunsInCircle slot h := by
  induction steps generalizing h visited with
  | zero =>
    have hmem : h ∉ visited := by simpa [returnsFrom] using hreturns
    refine not_runsInCircle_of_link?_eq_none ?_
    cases hget : s.get? h with
    | none => simp [link?, hget]
    | some c =>
      -- As many composites were met as there are slots, so this one was met as well.
      refine absurd (mem_of_size_le_length hnodup hthere ?_ (contains_of_get? hget)) hmem
      omega
  | succ steps ih =>
    rw [returnsFrom, Bool.or_eq_false_iff] at hreturns
    obtain ⟨hmem, hreturns⟩ := hreturns
    split at hreturns
    · rename_i hget
      exact not_runsInCircle_of_link?_eq_none (by simp [link?, hget])
    rename_i c hget
    cases hnext : c.links.get slot with
    | none => exact not_runsInCircle_of_link?_eq_none ((link?_of_get? hget).trans hnext)
    | some b =>
      rw [hnext] at hreturns
      refine not_runsInCircle_of_next ((link?_of_get? hget).trans hnext) (ih hreturns ?_ ?_ ?_)
      · exact List.nodup_cons.mpr ⟨by simpa using hmem, hnodup⟩
      · intro v hv
        rcases List.mem_cons.mp hv with rfl | hv
        · exact contains_of_get? hget
        · exact hthere v hv
      · rw [List.length_cons]
        omega

theorem returns_iff : s.returns slot h = true ↔ s.RunsInCircle slot h := by
  constructor
  · exact fun hreturns => runsInCircle_of_returnsFrom hreturns fun _ hv => nomatch hv
  · intro hcircle
    by_contra hreturns
    have hnone : s.returnsFrom slot s.size [] (some h) = false := Bool.eq_false_iff.mpr hreturns
    exact not_runsInCircle_of_returnsFrom hnone List.nodup_nil
      (fun _ hv => nomatch hv) (Nat.le_refl _) hcircle

/-- A circle can be looked for from each composite in turn. -/
theorem acyclic_iff : s.Acyclic ↔
    ∀ e ∈ s.live, ∀ slot ∈ Slot.all, isChain slot = true → s.returns slot e.1 = false := by
  constructor
  · intro hs e _ slot _ hslot
    exact Bool.eq_false_iff.mpr fun hreturns => hs.not_runsInCircle hslot (returns_iff.mp hreturns)
  · intro hall slot hslot h hcircle
    obtain ⟨b, hb, _⟩ := TransGen.head'_iff.mp hcircle
    obtain ⟨c, hget, _⟩ := Option.bind_eq_some_iff.mp hb
    have hreturns := hall (h, c) (mem_live.mpr hget) slot (by cases slot <;> decide) hslot
    rw [returns_iff.mpr ⟨h, .refl, hcircle⟩] at hreturns
    cases hreturns

instance : Decidable s.Acyclic := decidable_of_iff _ acyclic_iff.symm

/-! ## Assigning -/

/-- Chains that differ only in what comes after a composite lead to it alike. -/
theorem onChain_congr {t : Store} {slot' : Slot} {v : Handle}
    (hsame : ∀ a, a ≠ h → t.link? slot' a = s.link? slot a) (hv : s.OnChain slot v h) :
      t.OnChain slot' v h := by
  induction hv using ReflTransGen.head_induction_on with
  | refl => exact .refl
  | @head a b hstep _ ih =>
    by_cases ha : a = h
    · rw [ha]
      exact .refl
    · exact ih.head ((hsame a ha).trans hstep)

/-- If only the step after a composite differs, every way is an old one or passes that composite. -/
theorem transGen_or_passes {t : Store}
    (hsame : ∀ a, a ≠ h → t.link? slot a = s.link? slot a) {x y : Handle}
    (hway : TransGen (t.Next slot) x y) :
    TransGen (s.Next slot) x y ∨ t.OnChain slot x h ∧ TransGen (t.Next slot) h y := by
  induction hway with
  | single hstep =>
    by_cases hx : x = h
    · subst hx
      exact Or.inr ⟨.refl, .single hstep⟩
    · exact Or.inl (.single ((hsame x hx).symm.trans hstep))
  | tail hway hstep ih =>
    rename_i b c
    by_cases hb : b = h
    · subst hb
      exact Or.inr ⟨hway.to_reflTransGen, .single hstep⟩
    · rcases ih with hold | ⟨hto, hfrom⟩
      · exact Or.inl (hold.tail ((hsame b hb).symm.trans hstep))
      · exact Or.inr ⟨hto, hfrom.tail hstep⟩

/-- A circle that is new passes the composite whose slot was set. -/
theorem transGen_self_of_new {t : Store} (hsame : ∀ a, a ≠ h → t.link? slot a = s.link? slot a)
    (hs : ∀ x, ¬TransGen (s.Next slot) x x) {x : Handle} (hcircle : TransGen (t.Next slot) x x) :
    TransGen (t.Next slot) h h := by
  rcases transGen_or_passes hsame hcircle with hold | ⟨hto, hfrom⟩
  · exact absurd hold (hs x)
  · exact hfrom.trans_left hto

section Assigned

variable {c : Composite} {value : Option Handle} (hget : s.get? h = some c)

theorem link?_setSlot_ne {x : Handle} (hx : x ≠ h) (other : Slot) :
    (s.modify h fun c => c.setSlot slot value).link? other x = s.link? other x := by
  rw [link?_modify, if_neg hx]

include hget

theorem link?_setSlot_self : (s.modify h fun c => c.setSlot slot value).link? slot h = value := by
  rw [link?_modify, if_pos rfl, hget]
  exact c.links.get_set_self slot value

theorem link?_setSlot_other {other : Slot} (hother : other ≠ slot) (x : Handle) :
    (s.modify h fun c => c.setSlot slot value).link? other x = s.link? other x := by
  by_cases hx : x = h
  · rw [hx, link?_modify, if_pos rfl, hget, link?_of_get? hget]
    exact c.links.get_set_ne value hother
  · exact link?_setSlot_ne hx other

/-- A slot of a composite is set and its chain does not come back: there is no circle anywhere. -/
theorem Acyclic.setSlot (hs : s.Acyclic)
    (hreturns : (isChain slot && (s.modify h fun c => c.setSlot slot value).returns slot h) =
      false) :
    (s.modify h fun c => c.setSlot slot value).Acyclic := by
  intro other hother x hcircle
  by_cases heq : other = slot
  · subst heq
    have hself :=
      transGen_self_of_new (fun a ha => link?_setSlot_ne ha other) (hs other hother) hcircle
    rw [hother, Bool.true_and, returns_iff.mpr ⟨h, .refl, hself⟩] at hreturns
    cases hreturns
  -- Along any other slot nothing has changed, so the circle was there before.
  · refine hs other hother x (TransGen.mono (fun a b hstep => ?_) x x hcircle)
    exact (link?_setSlot_other hget heq a).symm.trans hstep

/-- The chain comes back exactly if it led from the new value to the composite before. -/
theorem returns_setSlot_iff (hs : s.Acyclic) (hslot : isChain slot = true) (v : Handle) :
    (s.modify h fun c => c.setSlot slot (some v)).returns slot h = true ↔ s.OnChain slot v h := by
  have hsame : ∀ a,
    a ≠ h → (s.modify h fun c => c.setSlot slot (some v)).link? slot a = s.link? slot a :=
    fun a ha => link?_setSlot_ne ha slot
  have hstep : (s.modify h fun c => c.setSlot slot (some v)).Next slot h v :=
    link?_setSlot_self hget
  rw [returns_iff]
  constructor
  · rintro ⟨x, _, hcircle⟩
    have hself := transGen_self_of_new hsame (hs slot hslot) hcircle
    obtain ⟨b, hb, hback⟩ := TransGen.head'_iff.mp hself
    rw [Option.some.inj (hb.symm.trans hstep)] at hback
    exact onChain_congr (fun a ha => (hsame a ha).symm) hback
  · intro hv
    exact ⟨h, .refl, TransGen.head' hstep (onChain_congr hsame hv)⟩

end Assigned

/-! ### Other changes -/

/-- Fewer links make no circles. -/
theorem Acyclic.of_link? {t : Store} (hs : s.Acyclic)
    (hlink : ∀ slot a b, isChain slot = true → t.link? slot a = some b → s.link? slot a = some b) :
      t.Acyclic :=
  fun slot hslot h hcircle =>
    hs slot hslot h (TransGen.mono (fun a b hstep => hlink slot a b hslot hstep) h h hcircle)

theorem Acyclic.modify (hs : s.Acyclic) (h : Handle) {f : Composite → Composite}
    (hf : ∀ c slot, (f c).links.get slot = c.links.get slot) : (s.modify h f).Acyclic := by
  refine hs.of_link? fun slot a b _ hlink => ?_
  rw [link?_modify] at hlink
  split at hlink
  · rename_i ha
    subst ha
    simpa only [link?, hf] using hlink
  · exact hlink

theorem Acyclic.add (hs : s.Acyclic) (title : Option String) (type : TypeTree) :
    (s.add (.fresh title type)).1.Acyclic := by
  refine hs.of_link? fun slot a b _ hlink => ?_
  unfold link? at hlink ⊢
  rw [get?_add] at hlink
  split at hlink
  · cases slot <;> cases hlink
  · exact hlink

theorem Acyclic.free (hs : s.Acyclic) (h : Handle) : (s.free h).Acyclic := by
  refine hs.of_link? fun slot a b _ hlink => ?_
  unfold link? at hlink ⊢
  rw [get?_free] at hlink
  split at hlink
  · cases hlink
  · exact hlink

theorem acyclic_empty : Store.empty.Acyclic := by decide

end Store

/-! ## Actions -/

namespace Discipline

/-- Chains run in no circle. -/
def acyclic : Discipline where
  holds := Store.Acyclic
  leads _ _ := True
  known _ _ := True
  strict := False
  leads_refl _ := trivial
  leads_trans _ _ := trivial
  known_mono _ _ := trivial
  known_there _ := trivial
  known_named _ _ _ := trivial
  sound_stored hstrict := hstrict.elim

instance : acyclic.Storewise := ⟨rfl⟩

theorem permits_acyclic : acyclic.PermitsEnding where
  known _ _ := trivial
  amend h hf _ hs := ⟨hs.modify h fun c slot => (hf c).slots slot, trivial⟩
  assign _ _ hget hreturns hs := ⟨hs.setSlot hget hreturns, trivial⟩
  add title type _ hs := ⟨hs.add title type, trivial⟩
  die h hs := ⟨hs.modify h fun _ _ => rfl, trivial⟩
  free h hs := ⟨hs.free h, trivial⟩

theorem knows_acyclic {α : Type} [Held α] {s : Store} {a : α} : acyclic.Knows s a :=
  knows_of_lax id fun _ => trivial

theorem fits_acyclic {m : Machine} (hs : m.store.Acyclic) : acyclic.Fits m :=
  ⟨hs, fun _ _ => knows_acyclic, trivial⟩

end Discipline

open Discipline

/-- All that can be done to a machine: requests, whatever handles they store, and the single steps
    that keep the lists of retainers and the frames. -/
inductive Action where
  | request (request : Request)
  | setOperator (handle : Handle) (symbol : String) (operator : Operator)
  | retain (retaining retained : Handle)
  | release (retaining retained : Handle)
  | retainOrRelease (retaining retained : Handle)
  | reconcile (retaining : Handle) (old new : List Handle)
  | destroy (handle : Handle)
  | pushFrame
  | popFrame
  | setTransfer (value : Option Value) (kind : Option TransferKind)
  | resetTransfer

/-- Carries an action out. -/
def Action.run (r : Rules) : Action → Run Unit
  | .request asked => asked.run r
  | .setOperator handle symbol operator => Run.setOperator handle symbol operator
  | .retain retaining retained => Run.retain retaining retained
  | .release retaining retained => Run.release r retaining retained
  | .retainOrRelease retaining retained => Run.retainOrRelease r retaining retained
  | .reconcile retaining old new => Run.reconcile r retaining old new
  | .destroy handle => r.destroy handle
  | .pushFrame => Run.pushFrame
  | .popFrame => do let _ ← Run.popFrame
  | .setTransfer value kind => Run.setTransfer r value kind
  | .resetTransfer => Run.resetTransfer r

section Actions

variable {depth : Nat} {m : Machine}

theorem acyclic_of_keeps {x : Run Unit} (hs : m.store.Acyclic) (hx : acyclic.Keeps m x x) :
    Agree False m x x fun _ m' => m'.store.Acyclic :=
      (hx (fits_acyclic hs)).mono fun _ _ h => h.holds

theorem request_keeps_acyclic (request : Request) (hs : m.store.Acyclic) :
    Agree False m (request.run (rules depth)) (request.run (rules depth)) fun _ m' =>
      m'.store.Acyclic := by
  have hp := permits_acyclic
  obtain ⟨ho, hd⟩ := hp.obeys depth
  have hc : acyclic.Collecting (rules depth) (rules depth) := collecting_of_destroy hd
  have hg := hp.grants hc
  have hm := fits_acyclic hs
  have hkeeps {x : Run Unit} := acyclic_of_keeps (x := x) hs
  have hmade : ∀ {α : Type} [Held α] {x : Run α}, acyclic.Keeps m x x →
      Agree False m (do let _ ← x) (do let _ ← x) fun _ m' => m'.store.Acyclic :=
    fun hx => hkeeps (hx.bind fun _ _ _ => hg.pure _)
  cases request with
  | createComposite title type scope =>
      exact hmade (hg.createComposite title False.elim scope).keeps
  | createSelfLeveled title kind scope => exact hmade (hg.createSelfLeveled title kind scope).keeps
  | createFunction title statements scope => exact hmade (hg.createFunction title statements scope)
  | createNamespace title scope levels => exact hmade (hg.createNamespace title scope levels)
  | createObject above classHandle below => exact hmade (hg.createObject above classHandle below)
  | setSuperLevels handle above => exact hkeeps (hg.setSuperLevels handle above)
  | setSelfLevels handle level => exact hkeeps (hg.setSelfLevels handle level)
  | setSubLevels object below => exact hkeeps (hg.setSubLevels object below)
  | setInheritedLevels handle source => exact hkeeps (hg.setInheritedLevels handle source)
  | setSlot handle slot value => exact hkeeps (hg.setSlot handle slot value)
  | mutate mutation =>
    cases mutation with
    | setMember handle identifier overload placement =>
      exact hmade (hg.setMember handle identifier placement knows_acyclic)
    | removeMember handle identifier => exact hkeeps (hg.removeMember handle identifier)
    | setType handle type => exact hkeeps (hg.setType handle knows_acyclic)
    | setImport handle name imported => exact hkeeps (hg.setImport handle name imported)
    | removeImport handle name => exact hkeeps (hg.removeImport handle name)
    | addObserver handle observer => exact hkeeps (hg.addObserver handle observer)
    | removeObserver handle identifier => exact hkeeps (hg.removeObserver handle identifier)
  | destroyIfReleased handle => exact hkeeps (hc handle)
  | pushScope scope => exact Agree.of_eq rfl hs
  | popScope collect =>
    exact (popScope_agrees (hp.admits hc) collect hm).mono fun _ _ h => h.fits.holds
  | runModule tree => exact hkeeps (runModule_keeps (hp.admits hc) ho tree)

theorem action_keeps_acyclic (action : Action) (hs : m.store.Acyclic) :
    Agree False m (action.run (rules depth)) (action.run (rules depth)) fun _ m' =>
      m'.store.Acyclic := by
  have hp := permits_acyclic
  obtain ⟨_, hd⟩ := hp.obeys depth
  have hc : acyclic.Collecting (rules depth) (rules depth) := collecting_of_destroy hd
  have hg := hp.grants hc
  have hm := fits_acyclic hs
  have hkeeps {x : Run Unit} := acyclic_of_keeps (x := x) hs
  cases action with
  | request request => exact request_keeps_acyclic request hs
  | setOperator handle symbol operator => exact hkeeps (hg.setOperator handle symbol operator)
  | retain retaining retained => exact hkeeps (hp.retain retaining retained)
  | release retaining retained => exact hkeeps (hp.release hc retaining retained)
  | retainOrRelease retaining retained => exact hkeeps (hp.retainOrRelease hc retaining retained)
  | reconcile retaining old new => exact hkeeps (hg.reconcile retaining old new)
  | destroy handle => exact hkeeps (hd handle)
  | pushFrame => exact Agree.of_eq rfl hs
  | popFrame => exact Agree.of_eq rfl hs
  | setTransfer value kind =>
    exact (setTransfer_agrees (hp.admits hc) kind hm knows_acyclic).mono fun _ _ h => h.fits.holds
  | resetTransfer => exact (resetTransfer_agrees (hp.admits hc) hm).mono fun _ _ h => h.fits.holds

theorem actions_keep_acyclic (actions : List Action) (hs : m.store.Acyclic) :
    Agree False m (actions.forM (Action.run (rules depth)))
      (actions.forM (Action.run (rules depth)))
      fun _ m' => m'.store.Acyclic := by
  induction actions generalizing m with
  | nil => exact Agree.pure hs
  | cons action rest ih =>
    exact (action_keeps_acyclic action hs).bind fun _ _ hs' => ih hs'

end Actions

/-- Sets a slot, and settles the links to what it named before and to what it names now. -/
def Run.assignSlot (r : Rules) (h : Handle) (slot : Slot)
    (old value : Option Handle) : Run Unit := do
  modifyStore fun store => store.modify h fun composite => composite.setSlot slot value
  if old ≠ value then
    old.forM (retainOrRelease r h)
    value.forM (retainOrRelease r h)

/-- Setting a slot is rejected, and changes nothing, or is carried out. -/
theorem setSlot_eq (r : Rules) {m : Machine} {h : Handle} {c : Composite}
    (hget : m.store.get? h = some c) (slot : Slot) (value : Option Handle) :
    setSlot r h slot value m =
      if isChain slot && (m.store.modify h fun c => c.setSlot slot value).returns slot h then
        .ok ((), m)
      else assignSlot r h slot (c.links.get slot) value m := by
  unfold setSlot
  rw [store_bind_apply, hget]
  dsimp only
  split <;> rfl

/-- From an empty store, or from one in which no chain runs in a circle, no actions and no runs of
    modules close a circle.  In the machine they leave, setting a chain slot of a composite is
    rejected exactly if the new value is the composite itself or leads to it along that slot; what
    is rejected changes nothing. -/
theorem chains_never_return {seed : Store} (hseed : seed = .empty ∨ seed.Acyclic)
    (preferences : Preferences)
    (tokens : Array Token) (depth : Nat) (actions : List Action) {m : Machine}
    (hrun : actions.forM (Action.run (rules depth))
      { Machine.withStore seed preferences with tokens } = .ok ((), m)) :
    (∀ slot, isChain slot = true → ∀ h, ¬TransGen (m.store.Next slot) h h) ∧
    ∀ (r : Rules) (slot : Slot) (h v : Handle) (c : Composite),
      isChain slot = true → m.store.get? h = some c →
      (v = h ∨ TransGen (m.store.Next slot) v h → setSlot r h slot (some v) m = .ok ((), m)) ∧
      (¬(v = h ∨ TransGen (m.store.Next slot) v h) →
        setSlot r h slot (some v) m = assignSlot r h slot (c.links.get slot) (some v) m) := by
  have hseed : seed.Acyclic := hseed.elim (fun h => h ▸ Store.acyclic_empty) id
  have hs : m.store.Acyclic := (actions_keep_acyclic actions hseed).post hrun
  refine ⟨hs, fun r slot h v c hslot hget => ?_⟩
  have hcloses :
    (isChain slot && (m.store.modify h fun c => c.setSlot slot (some v)).returns slot h) = true ↔
      v = h ∨ TransGen (m.store.Next slot) v h := by
    rw [hslot, Bool.true_and, Store.returns_setSlot_iff hget hs hslot, Store.OnChain,
      Relation.reflTransGen_iff_eq_or_transGen, eq_comm]
  rw [setSlot_eq r hget]
  exact ⟨fun h => if_pos (hcloses.mpr h), fun h => if_neg fun h' => h (hcloses.mp h')⟩

/-- A namespace inside another. -/
def nestedNamespaces : Store :=
  let space (title : String) (links : Links) : Composite :=
    { Composite.fresh (some title) (.ofKind .namespace) with links }
  ⟨#[⟨0, some (space "Global" { retainers := [⟨1, 0⟩] })⟩,
    ⟨0, some (space "Local" { scope := some ⟨0, 0⟩ })⟩]⟩

/-- A third one is made inside the second; the first cannot be put into it. -/
theorem chains_never_return_nested :
    let inner : Action := .request (.createNamespace (some "Inner") (some ⟨1, 0⟩) .own)
    nestedNamespaces.Acyclic ∧ ∃ m,
      [inner].forM (Action.run (rules 12)) (Machine.withStore nestedNamespaces {}) = .ok ((), m) ∧
        (∀ h, ¬TransGen (m.store.Next .scope) h h) ∧
        setSlot (rules 12) ⟨0, 0⟩ .scope (some ⟨2, 0⟩) m = .ok ((), m) := by
  intro inner
  have hseed : nestedNamespaces.Acyclic := by decide
  have hchain :
    ([inner].forM (Action.run (rules 12)) (Machine.withStore nestedNamespaces {})).toOption.map
      (fun result => (result.2.store.contains ⟨0, 0⟩, result.2.store.link? .scope ⟨2, 0⟩,
        result.2.store.link? .scope ⟨1, 0⟩)) =
        some (true, some ⟨1, 0⟩, some ⟨0, 0⟩) := by decide +kernel
  obtain ⟨⟨⟩, m, hrun, hlinks⟩ := Run.exists_ok_of_map hchain
  obtain ⟨hthere, hsecond, hfirst⟩ : _ ∧ _ ∧ _ := by simpa only [Prod.mk.injEq] using hlinks
  obtain ⟨c, hget⟩ := Store.contains_iff.mp hthere
  obtain ⟨hacyclic, hassign⟩ := chains_never_return (Or.inr hseed) {} #[] 12 [inner] hrun
  refine ⟨hseed, m, hrun, hacyclic .scope rfl,
    (hassign (rules 12) .scope ⟨0, 0⟩ ⟨2, 0⟩ c rfl hget).1 ?_⟩
  exact Or.inr (TransGen.head hsecond (.single hfirst))

end CompositeGraph
