/-
  MOVING: what becomes of a composite that is put into a slot.

  The old value of the slot is let go before the new one is listed.  If the new one was kept only by
  way of the old one, it falls with it, and there is nothing left to be listed.

    1. LETTING GO.  A slot has been set, and the old value is still to be let go.
    2. SURVIVAL.    The new value lives on exactly if it does not fall with the old one.
-/
import CompositeGraph.Proofs.Chains
import CompositeGraph.Proofs.Collection

namespace CompositeGraph

open Run Store

/-! ## Letting go -/

/-- The machine in which a slot has a new value, and nothing else has changed. -/
abbrev Machine.withSlot (m : Machine) (a : Handle) (slot : Slot)
    (value : Option Handle) : Machine :=
  { m with store := m.store.modify a fun c => c.setSlot slot value }

/-- What is kept without `a` in the list of `o`, if `a` is not linked to it. -/
abbrev Machine.KeptWithout (m : Machine) (a o h : Handle) : Prop :=
  (m.store.struckAll a (Changed.gone a [o] m)).Kept m.roots h

/-- The assignment of `v` to a slot of `a` that retains its value, in a machine whose store is
    symmetric and in which nothing dying is kept.  It is not refused. -/
structure Moves (m : Machine) (a : Handle) (c : Composite) (slot : Slot) (v : Handle) : Prop where
  symmetric : m.store.Symmetric
  there : m.store.get? a = some c
  retained : m.isRetained a = true
  lost : ∀ d, m.store.isDying d = true → m.isRetained d = false
  retains : slot ≠ .currentType
  accepted : (isChain slot && (m.withSlot a slot (some v)).store.returns slot a) = false
  lives : m.store.isAlive v = true

namespace Moves

variable {m m' : Machine} {a o v : Handle} {c : Composite} {slot : Slot} {depth : Nat}

theorem roots (m : Machine) (a : Handle) (slot : Slot) (v : Handle) :
    (m.withSlot a slot (some v)).roots = m.roots := m.roots_modify a _

theorem retainers (m : Machine) (a : Handle) (slot : Slot) (v b : Handle) :
    (m.withSlot a slot (some v)).store.retainers b = m.store.retainers b :=
  retainers_modify (s := m.store) (h := a) (f := fun c => c.setSlot slot (some v))
    (fun c => by cases slot <;> rfl) b

theorem isAlive (m : Machine) (a : Handle) (slot : Slot) (v b : Handle) :
    (m.withSlot a slot (some v)).store.isAlive b = m.store.isAlive b :=
  isAlive_modify (s := m.store) (h := a) (f := fun c => c.setSlot slot (some v)) (fun _ => rfl) b

theorem isDying (m : Machine) (a : Handle) (slot : Slot) (v b : Handle) :
    (m.withSlot a slot (some v)).store.isDying b = m.store.isDying b :=
  isDying_modify (s := m.store) (h := a) (f := fun c => c.setSlot slot (some v)) (fun _ => rfl) b

theorem kept_withSlot
    (h : (m.withSlot a slot (some v)).store.Kept (m.withSlot a slot (some v)).roots o) :
    m.store.Kept m.roots o := by
  rw [roots] at h
  exact h.mono (fun x y hxy => by rwa [retainers] at hxy) fun _ => id

variable (h : Moves m a c slot v)

include h

theorem references :
    (m.withSlot a slot (some v)).store.references a = (c.setSlot slot (some v)).references :=
  references_of_get? (get?_modify_self _ h.there)

theorem not_dying_of_kept {x : Handle} (hx : m.store.Kept m.roots x) :
    m.store.isDying x = false := by
  refine Bool.eq_false_iff.mpr fun hd => ?_
  have hretained : m.isRetained x = true := reaches_iff.mpr hx
  rw [h.lost x hd] at hretained
  cases hretained

theorem isAlive_self : m.store.isAlive a = true := by
  refine (contains_iff_alive_or_dying.mp (contains_of_get? h.there)).resolve_right ?_
  rw [h.not_dying_of_kept (reaches_iff.mp h.retained)]
  exact Bool.false_ne_true

theorem spared_self : (m.withSlot a slot (some v)).KeptWithout a o a := by
  refine Kept.struckAll_self ?_
  rw [roots]
  exact (reaches_iff.mp h.retained).mono (fun x y hxy => by rwa [retainers]) fun _ => id

/-- What is linked was listed before. -/
theorem listed (ho : c.links.get slot = some o) (hao : a ≠ o)
    (hthere : m.store.contains o = true) : a ∈ m.store.retainers o := by
  refine h.symmetric.mem_retainers_iff.mpr ⟨hthere, hao, ?_⟩
  rw [references_of_get? h.there]
  exact Composite.mem_references_of_slot h.retains ho

theorem releasing :
    (m.withSlot a slot (some v)).Releasing ((m.withSlot a slot (some v)).KeptWithout a o) a
      (Changed.gone a [o] (m.withSlot a slot (some v))) (m.withSlot a slot (some v)) := by
  have hkept : ∀ x, (m.withSlot a slot (some v)).KeptWithout a o x → m.store.Kept m.roots x :=
    fun x hx => kept_withSlot (sheds_struckAll.kept hx)
  refine ⟨⟨rfl, rfl, rfl, ⟨rfl, fun _ c hc => ⟨c, hc, rfl⟩, ?_⟩, ?_, ?_⟩,
    Or.inl h.spared_self, ?_, fun _ => id⟩
  · intro x hx hthere
    refine (contains_iff_alive_or_dying.mp hthere).resolve_right ?_
    rw [isDying, h.not_dying_of_kept (hkept x hx)]
    exact Bool.false_ne_true
  · exact fun x hx => sheds_struckAll.kept hx
  · intro d hd hk
    rw [isDying, h.not_dying_of_kept (kept_withSlot hk)] at hd
    cases hd
  · intro _ hself
    rw [retainers] at hself
    exact (h.symmetric.mem_retainers_iff.mp hself).2.1 rfl

/-- The old value is let go, with what falls then. -/
theorem letGo (ho : c.links.get slot = some o)
    (hmute : (m.withSlot a slot (some v)).Mute ((m.withSlot a slot (some v)).KeptWithout a o))
    (hdepth : m.store.size < depth) :
    Ends (m.withSlot a slot (some v)) (retainOrRelease (rules depth) a o) fun _ m' =>
      (m.withSlot a slot (some v)).Released (m.withSlot a slot (some v)).roots a
        (Changed.gone a [o] (m.withSlot a slot (some v))) m' := by
  have hcard : (m.withSlot a slot (some v)).store.living.card < depth := by
    have hle := card_living_le_size (s := (m.withSlot a slot (some v)).store)
    rw [size_modify] at hle
    omega
  have hthere : (m.withSlot a slot (some v)).store.contains a = true := by
    rw [contains_modify]
    exact contains_of_get? h.there
  have hloop := forM_retainOrRelease_felled (fells_rules hmute (fun _ hr => .root hr) depth)
    h.spared_self hthere
    h.releasing hcard fun y hy _ hay hyt => by
      rw [List.mem_singleton.mp hy] at hay hyt ⊢
      rw [contains_modify] at hyt
      rw [retainers]
      exact h.listed ho hay hyt
  simpa only [List.forM_eq_forM, List.forM_cons, List.forM_nil, bind_pure_unit] using hloop

/-- The new value goes with the old one. -/
theorem fallsAll_iff (ho : c.links.get slot = some o) {x : Handle} :
    (m.withSlot a slot (some v)).store.FallsAll m.roots a
    (Changed.gone a [o] (m.withSlot a slot (some v))) x ↔
      o ∉ (c.setSlot slot (some v)).references ∧
        ((m.withSlot a slot (some v)).store.struck a o).Falls m.roots o x := by
  rw [Changed.gone, h.references]
  by_cases hlink : o ∈ (c.setSlot slot (some v)).references
  · rw [List.filter_cons_of_neg (by simpa using hlink)]
    simp [Store.FallsAll, hlink]
  · rw [List.filter_cons_of_pos (by simpa using hlink), List.filter_nil]
    simp only [hlink, not_false_eq_true, true_and]
    constructor
    · rintro ⟨y, hy, _, hf⟩
      exact List.mem_singleton.mp hy ▸ hf
    · intro hf
      -- Something that falls lives, so the composite is in its list.
      obtain ⟨halive, hlost⟩ := hf.source
      have hao : a ≠ o := by
        rintro rfl
        have hkept := h.spared_self (o := a)
        rw [Machine.KeptWithout, Changed.gone, h.references,
          List.filter_cons_of_pos (by simpa using hlink), List.filter_nil, roots] at hkept
        exact hlost hkept
      rw [isAlive_of_bare? (bare?_mapRetainers o o _), isAlive] at halive
      refine ⟨o, List.mem_singleton_self o, ?_, hf⟩
      rw [retainers]
      exact h.listed ho hao (contains_of_isAlive halive)

/-- Once the old value has been let go, the new one is listed if it is there. -/
theorem list {D : Handle → Prop} {E : Store.Edges}
    (hfelled : (m.withSlot a slot (some v)).Felled D E m') (ha : ¬D a) {r : Rules} :
    ∃ m'', retainOrRelease r a v m' = .ok ((), m'') ∧ (m''.store.isAlive v = true ↔ ¬D v) ∧
      (m''.store.isAlive v = true → v = a ∨ a ∈ m''.store.retainers v) := by
  have halive : m'.store.isAlive a = true :=
    (hfelled.sheds.alive a).mpr ⟨(isAlive ..).trans h.isAlive_self, ha⟩
  have hlink : v ∈ m'.store.references a := by
    obtain ⟨d, hd, _⟩ := isAlive_iff.mp halive
    obtain ⟨e, he, hw⟩ := hfelled.worn.get? hd
    rw [references_of_get? hd, Composite.view_of_kernel hw.kernel Composite.references fun _ => rfl,
      ← references_of_get? he, h.references]
    exact Composite.mem_references_of_slot h.retains (Links.get_set_self _ _ _)
  have hsame : (m'.store.listing a v).isAlive v = m'.store.isAlive v :=
    isAlive_of_bare? (bare?_listing v v)
  refine ⟨_, retainOrRelease_listing halive hlink, ?_, ?_⟩
  · show (m'.store.listing a v).isAlive v = true ↔ _
    rw [hsame, hfelled.sheds.alive, isAlive]
    simp [h.lives]
  · intro hv
    have hv : m'.store.isAlive v = true := hsame ▸ hv
    by_cases hva : v = a
    · exact Or.inl hva
    · refine Or.inr ?_
      show a ∈ (m'.store.listedIn a [v]).retainers v
      exact mem_retainers_listedIn.mpr
        (Or.inr ⟨rfl, Ne.symm hva, List.mem_singleton_self v, contains_of_isAlive hv⟩)

end Moves

/-! ## Survival -/

/-- A composite that is put into a slot lives on, and lists the composite that has the slot, exactly
    if it does not fall with the slot's old value. -/
theorem moved_lives_iff {m : Machine} {a v : Handle} {c : Composite} {slot : Slot} {depth : Nat}
    (h : Moves m a c slot v) (hmute : ∀ o, c.links.get slot = some o →
      (m.withSlot a slot (some v)).Mute ((m.withSlot a slot (some v)).KeptWithout a o))
    (hdepth : m.store.size < depth) :
    ∃ m', setSlot (rules depth) a slot (some v) m = .ok ((), m') ∧
      (m'.store.isAlive v = true ↔ ¬∃ o,
        c.links.get slot = some o ∧ o ∉ (c.setSlot slot (some v)).references ∧
        ((m.withSlot a slot (some v)).store.struck a o).Falls m.roots o v) ∧
      (m'.store.isAlive v = true → v = a ∨ a ∈ m'.store.retainers v) := by
  rw [setSlot_eq (rules depth) h.there, if_neg (ne_true_of_eq_false h.accepted)]
  cases ho : c.links.get slot with
  | none =>
    -- There is no old value to let go.
    obtain ⟨m', hrun, halive, hlisted⟩ := h.list (.refl _) id (r := rules depth)
    refine ⟨m', hrun, halive.trans ?_, hlisted⟩
    simp
  | some o =>
    by_cases hov : o = v
    · subst hov
      have hlink : o ∈ (c.setSlot slot (some o)).references :=
        Composite.mem_references_of_slot h.retains (Links.get_set_self _ _ _)
      refine ⟨m.withSlot a slot (some o), ?_, ?_, fun _ => ?_⟩
      · show (if some o ≠ some o then (_ : Run Unit) else _) _ = _
        rw [if_neg (not_not_intro rfl)]
        rfl
      · rw [Moves.isAlive]
        simp [h.lives, hlink]
      · by_cases hao : a = o
        · exact Or.inl hao.symm
        · rw [Moves.retainers]
          exact Or.inr (h.listed ho hao (contains_of_isAlive h.lives))
    · obtain ⟨_, m₁, hrun₁, h₁⟩ := h.letGo ho (hmute o ho) hdepth
      obtain ⟨m', hrun, halive, hlisted⟩ :=
        h.list h₁ (h.releasing.not_fallsAll h.spared_self) (r := rules depth)
      refine ⟨m', ?_, halive.trans (not_congr ?_), hlisted⟩
      · show (if some o ≠ some v then (_ : Run Unit) else _) _ = _
        rw [if_pos (by simpa using hov)]
        show (retainOrRelease (rules depth) a o _).bind
          (fun p => retainOrRelease (rules depth) a v p.2) = _
        rw [hrun₁]
        exact hrun
      · rw [Moves.roots, h.fallsAll_iff ho]
        simp

/-- A namespace with another above it. -/
def below : Composite := (Sketch.made "A" .namespace [] [⟨0, 0⟩]).setSlot .super (some ⟨2, 0⟩)

/-- `A` has `O` above it.  `O` holds `V`, and so does the outermost namespace. -/
def heldAbove : Store :=
  ⟨#[⟨0, some (Sketch.made "Global" .namespace [("a", [⟨1, 0⟩]), ("v", [⟨3, 0⟩])] [])⟩,
    ⟨0, some below⟩,
    ⟨0, some (Sketch.made "O" .namespace [("v", [⟨3, 0⟩])] [⟨1, 0⟩])⟩,
    ⟨0, some (Sketch.made "V" .namespace [] [⟨2, 0⟩, ⟨0, 0⟩])⟩]⟩

/-- When `V` takes the place of `O`, it stays, as it is held by another. -/
theorem moved_lives_iff_held :
    let m := Machine.withStore heldAbove {}
    let m₁ := m.withSlot ⟨1, 0⟩ .super (some ⟨3, 0⟩)
    Moves m ⟨1, 0⟩ below .super ⟨3, 0⟩ ∧
      (∀ o, below.links.get .super = some o → m₁.Mute (m₁.KeptWithout ⟨1, 0⟩ o)) ∧
      m.store.size < 5 ∧
      ∃ m', setSlot (rules 5) ⟨1, 0⟩ .super (some ⟨3, 0⟩) m = .ok ((), m') ∧
      m'.store.isAlive ⟨3, 0⟩ = true ∧
        ⟨1, 0⟩ ∈ m'.store.retainers ⟨3, 0⟩ := by
  intro m m₁
  have hlively : ∀ d, heldAbove.isDying d = false :=
    isDying_of_lively (forall_get?_iff.mpr (by decide))
  have hmoves : Moves m ⟨1, 0⟩ below .super ⟨3, 0⟩ :=
    ⟨by decide, rfl, by decide, fun d hd => absurd hd (ne_true_of_eq_false (hlively d)), by decide,
      by decide, by decide⟩
  have hmute : ∀ o, below.links.get .super = some o → m₁.Mute (m₁.KeptWithout ⟨1, 0⟩ o) :=
    fun o _ => Machine.mute_of_unnamed
      ⟨by decide, forall_get?_iff.mpr (by decide), forall_get?_iff.mpr (by decide)⟩
  have hdepth : m.store.size < 5 := by decide
  obtain ⟨m', hrun, halive, hlisted⟩ := moved_lives_iff hmoves hmute hdepth
  have hlives : m'.store.isAlive ⟨3, 0⟩ = true := by
    refine halive.mpr ?_
    rintro ⟨o, ho, _, hfalls⟩
    cases ho
    exact hfalls.not_kept (reaches_iff.mp (by decide))
  exact ⟨hmoves, hmute, hdepth, m', hrun, hlives, (hlisted hlives).resolve_left (by decide)⟩

/-- `A` has `O` above it, and only `O` holds `V`. -/
def heldByOldValue : List Request :=
  [.createNamespace (some "Global") none .own,
    .pushScope ⟨⟨0, 0⟩, none, none⟩,
    .createNamespace (some "A") (some ⟨0, 0⟩) .own,
    .mutate (.setMember ⟨0, 0⟩ "a" (holding ⟨1, 0⟩) .append),
    .createNamespace (some "O") (some ⟨0, 0⟩) .own,
    .setSlot ⟨1, 0⟩ .super (some ⟨2, 0⟩),
    .createNamespace (some "V") (some ⟨0, 0⟩) .own,
    .mutate (.setMember ⟨2, 0⟩ "v" (holding ⟨3, 0⟩) .append)]

/-- A composite that is put into a slot may be gone afterwards: what held it was
    the slot's old value. -/
theorem moved_falls_with_old_value :
    ∃ m c, session (rules 40) heldByOldValue (.fresh {}) = some m ∧ m.AtRest ∧
      Moves m ⟨1, 0⟩ c .super ⟨3, 0⟩ ∧
      ∃ m', setSlot (rules 40) ⟨1, 0⟩ .super (some ⟨3, 0⟩) m = .ok ((), m') ∧
        m'.store.contains ⟨3, 0⟩ = false := by
  have hcheck : (session (rules 40) heldByOldValue (.fresh {})).map (fun m =>
      decide (m.AtRest ∧ (m.store.get? ⟨1, 0⟩).isSome = true ∧
        (m.withSlot ⟨1, 0⟩ .super (some ⟨3, 0⟩)).store.returns .super ⟨1, 0⟩ = false ∧
        m.store.isAlive ⟨3, 0⟩ = true ∧
        (setSlot (rules 40) ⟨1, 0⟩ .super (some ⟨3, 0⟩) m).toOption.map
        (fun p => p.2.store.contains ⟨3, 0⟩) =
          some false)) = some true := by decide +kernel
  obtain ⟨m, hsession, hall⟩ := Option.map_eq_some_iff.mp hcheck
  obtain ⟨hrest, hthere, haccepted, hlives, hgone⟩ := of_decide_eq_true hall
  obtain ⟨c, hc⟩ := Option.isSome_iff_exists.mp hthere
  obtain ⟨_, m', hrun, hgone⟩ := Run.exists_ok_of_map hgone
  refine ⟨m, c, hsession, hrest,
    ⟨hrest.symmetric, hc, hrest.retained _ c hc, fun d hd => ?_, by decide, ?_, hlives⟩,
    m', hrun, hgone⟩
  · exact absurd hd (ne_true_of_eq_false (isDying_of_lively hrest.lively d))
  · rw [haccepted, Bool.and_false]

end CompositeGraph
