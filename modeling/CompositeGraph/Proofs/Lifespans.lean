/-
  LIFESPANS: handles and lives go one way.

  Slots are only ever added.  A gap stays a gap; a composite stays in its slot under its handle, or
  leaves a gap with the next generation.  A life goes from creating to idle and ends once: while a
  composite is being destroyed it is marked, and no step takes the mark off before the slot is
  freed.  The outermost namespace is a root, so it is never destroyed by a run.

    1. AGEING.   `Store.Ages`, slot by slot: what may become of a store.
    2. CHANGES.  Each change to a store ages it, and so does a life that ends, from
                 its mark to its gap.
    3. LIVES.    The discipline of lives that are over: a watch that refuses to end
                 them again never steps in.
    4. RUNS.     What a run leaves of the store it started with.
-/
import CompositeGraph.Proofs.Destruction
import CompositeGraph.Proofs.Plain
import CompositeGraph.Proofs.Reachability
import CompositeGraph.Proofs.Safety
import CompositeGraph.Proofs.Stacks

namespace CompositeGraph

open Run Store

/-! ## Ageing -/

/-- How a life goes on while it does not end. -/
def Life.Continues (old new : Life) : Prop := new = old ∨ old = .creating ∧ new = .idle

theorem Life.Continues.trans {a b c : Life} (h : a.Continues b) (h' : b.Continues c) :
    a.Continues c := by
  rcases h with rfl | ⟨rfl, rfl⟩
  · exact h'
  · rcases h' with rfl | ⟨hcreating, _⟩
    · exact Or.inr ⟨rfl, rfl⟩
    · cases hcreating

theorem Life.Continues.isAlive {c d : Composite} (h : c.life.Continues d.life) :
    d.isAlive = c.isAlive := by
  unfold Composite.isAlive
  rcases h with h | ⟨hc, hd⟩
  · rw [h]
  · rw [hc, hd]
    rfl

/-- What may become of a slot. -/
inductive Cell.Ages : Cell → Cell → Prop where
  /-- A gap stays a gap. -/
  | gap (generation : Nat) : Ages ⟨generation, none⟩ ⟨generation, none⟩
  /-- A composite lives on. -/
  | lives {generation : Nat} {c d : Composite} (h : c.life.Continues d.life) :
    Ages ⟨generation, some c⟩ ⟨generation, some d⟩
  /-- The life of a composite has ended. -/
  | ended {generation : Nat} {c : Composite} (h : c.isAlive = true) :
    Ages ⟨generation, some c⟩ ⟨Store.nextGeneration generation, none⟩

theorem Cell.Ages.refl : (cell : Cell) → cell.Ages cell
  | ⟨generation, none⟩ => .gap generation
  | ⟨_, some _⟩ => .lives (Or.inl rfl)

theorem Cell.Ages.trans {a b c : Cell} (h : a.Ages b) (h' : b.Ages c) : a.Ages c := by
  cases h with
  | gap generation => exact h'
  | lives hcontinues =>
    cases h' with
    | lives hcontinues' => exact .lives (hcontinues.trans hcontinues')
    | ended halive => exact .ended (hcontinues.isAlive.symm.trans halive)
  | ended halive =>
    cases h' with
    | gap => exact .ended halive

/-- What is in a slot was in it before. -/
theorem Cell.Ages.lived {a b : Cell} (h : a.Ages b) {d : Composite} (hd : b.composite = some d) :
    ∃ c : Composite, a = ⟨b.generation, some c⟩ ∧ c.life.Continues d.life := by
  cases h with
  | gap => cases hd
  | lives hcontinues =>
    cases hd
    exact ⟨_, rfl, hcontinues⟩
  | ended => cases hd

namespace Store

variable {s t u : Store} {h : Handle}

/-- What may become of a store: its slots age, and each new one holds a
    composite or held one before. -/
structure Ages (s t : Store) : Prop where
  old : ∀ {i : Nat} {cell : Cell}, s.cells[i]? = some cell →
    ∃ cell', t.cells[i]? = some cell' ∧ cell.Ages cell'
  new : ∀ {i : Nat} {cell : Cell}, s.size ≤ i → t.cells[i]? = some cell →
    cell = ⟨1, none⟩ ∨ ∃ c : Composite, cell = ⟨0, some c⟩ ∧ c.isAlive = true

theorem lt_size_iff {i : Nat} : i < s.size ↔ ∃ cell, s.cells[i]? = some cell := by
  constructor
  · exact fun hi => ⟨s.cells[i], Array.getElem?_eq_getElem hi⟩
  · rintro ⟨cell, hcell⟩
    exact (Array.getElem?_eq_some_iff.mp hcell).1

namespace Ages

theorem refl (s : Store) : s.Ages s where
  old {_ cell} hcell := ⟨cell, hcell, .refl cell⟩
  new {i cell} hi hcell := by
    have := lt_size_iff.mpr ⟨cell, hcell⟩
    omega

theorem size_le (h : s.Ages t) : s.size ≤ t.size := by
  by_contra hlt
  obtain ⟨cell, hcell⟩ := (lt_size_iff (s := s)).mp (Nat.not_le.mp hlt)
  obtain ⟨cell', hcell', _⟩ := h.old hcell
  exact Nat.lt_irrefl _ (lt_size_iff.mpr ⟨cell', hcell'⟩)

theorem trans (h : s.Ages t) (h' : t.Ages u) : s.Ages u where
  old hcell := by
    obtain ⟨cell', hcell', hages⟩ := h.old hcell
    obtain ⟨cell'', hcell'', hages'⟩ := h'.old hcell'
    exact ⟨cell'', hcell'', hages.trans hages'⟩
  new {i cell} hi hcell := by
    by_cases ht : i < t.size
    · obtain ⟨middle, hmiddle⟩ := lt_size_iff.mp ht
      obtain ⟨cell', hcell', hages⟩ := h'.old hmiddle
      obtain rfl : cell' = cell := Option.some.inj (hcell'.symm.trans hcell)
      rcases h.new hi hmiddle with rfl | ⟨c, rfl, halive⟩
      · cases hages
        exact Or.inl rfl
      · cases hages with
        | lives hcontinues => exact Or.inr ⟨_, rfl, hcontinues.isAlive.trans halive⟩
        | ended => exact Or.inl rfl
    · exact h'.new (Nat.not_lt.mp ht) hcell

end Ages

theorem get?_eq_some_iff {c : Composite} :
    s.get? h = some c ↔ s.cells[h.index]? = some ⟨h.generation, some c⟩ := by
  unfold get?
  constructor
  · intro hget
    split at hget
    · rename_i cell hcell
      split at hget
      · rename_i hgeneration
        rw [hcell, ← hgeneration, ← hget]
      · cases hget
    · cases hget
  · intro hcell
    rw [hcell]
    exact if_pos rfl

/-- What a handle names was there before, unless its slot is new. -/
theorem Ages.get? (hages : s.Ages t) (hlt : h.index < s.size) {d : Composite}
    (hget : t.get? h = some d) : ∃ c, s.get? h = some c ∧ c.life.Continues d.life := by
  obtain ⟨cell, hcell⟩ := lt_size_iff.mp hlt
  obtain ⟨cell', hcell', hage⟩ := hages.old hcell
  obtain rfl : cell' = ⟨h.generation, some d⟩ :=
    Option.some.inj (hcell'.symm.trans (get?_eq_some_iff.mp hget))
  obtain ⟨c, rfl, hcontinues⟩ := hage.lived rfl
  exact ⟨c, get?_eq_some_iff.mpr hcell, hcontinues⟩

/-! ## Changes -/

theorem cells_modify_ne {i : Nat} (f : Composite → Composite) (hi : i ≠ h.index) :
    (s.modify h f).cells[i]? = s.cells[i]? := by
  rw [modify, Array.getElem?_modify, if_neg hi.symm]

theorem cells_free_ne {i : Nat} (hi : i ≠ h.index) : (s.free h).cells[i]? = s.cells[i]? := by
  rw [free, Array.getElem?_modify, if_neg hi.symm]

theorem cells_free_self {c : Composite} (hget : s.get? h = some c) :
    (s.free h).cells[h.index]? = some ⟨nextGeneration h.generation, none⟩ := by
  rw [free, Array.getElem?_modify, if_pos rfl, get?_eq_some_iff.mp hget, Option.map_some]
  exact congrArg some (if_pos ⟨rfl, rfl⟩)

theorem Ages.modify {f : Composite → Composite} (h : Handle)
    (hf : ∀ c : Composite, c.life.Continues (f c).life) : s.Ages (s.modify h f) where
  old {i cell} hcell := by
    rw [Store.modify, Array.getElem?_modify, hcell]
    split
    · refine ⟨_, rfl, ?_⟩
      dsimp only
      split
      · obtain ⟨generation, _ | c⟩ := cell
        · exact .gap generation
        · exact .lives (hf c)
      · exact .refl cell
    · exact ⟨cell, rfl, .refl cell⟩
  new {i cell} hi hcell := by
    have := lt_size_iff.mpr ⟨cell, hcell⟩
    rw [size_modify] at this
    omega

theorem Ages.add {c : Composite} (halive : c.isAlive = true) : s.Ages (s.add c).1 where
  old {i cell} hcell := by
    have hlt : i < s.cells.size := lt_size_iff.mpr ⟨cell, hcell⟩
    refine ⟨cell, ?_, .refl cell⟩
    rw [Store.add, Array.getElem?_push, if_neg (Nat.ne_of_lt hlt)]
    exact hcell
  new {i cell} hi hcell := by
    have hlt := lt_size_iff.mpr ⟨cell, hcell⟩
    rw [size_add] at hlt
    have hlast : i = s.cells.size := by
      unfold size at hi hlt
      omega
    rw [Store.add, Array.getElem?_push, if_pos hlast] at hcell
    exact Or.inr ⟨c, (Option.some.inj hcell).symm, halive⟩

/-- From its mark to its gap: a life has ended if what was run in between aged the store. -/
theorem Ages.ending {c : Composite} (hget : s.get? h = some c) (halive : c.isAlive = true)
    (hages : (s.dead h).Ages t) :
    s.Ages (t.free h) ∧ ∃ d, t.get? h = some d := by
  have hmarked :=
    get?_eq_some_iff.mp (get?_modify_self (fun c => { c with life := .destroyed }) hget)
  obtain ⟨d, hd⟩ : ∃ d, t.get? h = some d := by
    obtain ⟨cell, hcell, hage⟩ := hages.old hmarked
    cases hage with
    | lives => exact ⟨_, get?_eq_some_iff.mpr hcell⟩
    | ended hmark => cases hmark
  refine ⟨⟨fun {i cell} hcell => ?_, fun {i cell} hi hcell => ?_⟩, d, hd⟩
  · by_cases hi : i = h.index
    · subst hi
      obtain rfl : cell = ⟨h.generation, some c⟩ :=
        Option.some.inj (hcell.symm.trans (get?_eq_some_iff.mp hget))
      exact ⟨_, cells_free_self hd, .ended halive⟩
    · rw [cells_free_ne hi]
      exact hages.old ((cells_modify_ne _ hi).trans hcell)
  · have hlt := index_lt_size hget
    rw [cells_free_ne (by omega)] at hcell
    exact hages.new (by rwa [size_modify]) hcell

/-! ## Lives -/

/-- The slot of a composite was handed out, and its life has ended or is about to. -/
def IsOver (s : Store) (h : Handle) : Prop := h.index < s.size ∧ s.isAlive h = false

theorem IsOver.ages (hover : s.IsOver h) (hages : s.Ages t) : t.IsOver h := by
  refine ⟨Nat.lt_of_lt_of_le hover.1 hages.size_le, Bool.eq_false_iff.mpr fun halive => ?_⟩
  obtain ⟨d, hd, hlife⟩ := isAlive_iff.mp halive
  obtain ⟨c, hc, hcontinues⟩ := hages.get? hover.1 hd
  have := isAlive_iff.mpr ⟨c, hc, hcontinues.isAlive.symm.trans hlife⟩
  rw [hover.2] at this
  cases this

/-- A handle that names nothing never names anything again. -/
theorem Ages.get?_eq_none (hages : s.Ages t) (hlt : h.index < s.size) (hnone : s.get? h = none) :
    t.get? h = none := by
  refine Option.eq_none_iff_forall_ne_some.mpr fun d hd => ?_
  obtain ⟨c, hc, _⟩ := hages.get? hlt hd
  rw [hnone] at hc
  cases hc

theorem IsOver.die (hover : s.IsOver h) (x : Handle) :
    (s.dead x).IsOver h := by
  refine ⟨by rw [size_modify]; exact hover.1, Bool.eq_false_iff.mpr fun halive => ?_⟩
  exact Bool.eq_false_iff.mp hover.2 (isAlive_dead.mp halive).1

theorem isOver_of_marked (ha : s.isAlive h = true) : (s.dead h).IsOver h := by
  refine ⟨?_, Bool.eq_false_iff.mpr fun halive => (isAlive_dead.mp halive).2 rfl⟩
  rw [size_modify]
  exact index_lt_size_of_contains (contains_of_isAlive ha)

end Store

/-- Asks whether a life that is over would be ended again. -/
def Machine.endsAgain (finished : List Handle) (m : Machine) (h : Handle) : Bool :=
  finished.contains h && m.store.isAlive h

namespace Discipline

/-- Some lives are over.  The store ages, and the first slot keeps its composite. -/
def lifespans (finished : List Handle) : Discipline where
  holds s := ∀ h ∈ finished, s.IsOver h
  leads s t := s.Ages t ∧ ∀ h, s.handleAt? 0 = some h → t.handleAt? 0 = some h
  known _ _ := True
  strict := False
  leads_refl s := ⟨.refl s, fun _ => id⟩
  leads_trans h h' := ⟨h.1.trans h'.1, fun a ha => h'.2 a (h.2 a ha)⟩
  known_mono _ _ := trivial
  known_there _ := trivial
  known_named _ _ _ := trivial
  sound_stored hstrict := hstrict.elim

variable {finished : List Handle} {m : Machine} {h : Handle}

instance : (lifespans finished).Storewise := ⟨rfl⟩

theorem knows_lifespans {α : Type} [Held α] {s : Store} {a : α} : (lifespans finished).Knows s a :=
  knows_of_lax id fun _ => trivial

theorem fits_lifespans (hover : ∀ h ∈ finished, m.store.IsOver h) : (lifespans finished).Fits m :=
  ⟨hover, fun _ _ => knows_lifespans, trivial⟩

/-- What is over stays over as the store ages. -/
theorem lifespans_changed {s t : Store} (hover : (lifespans finished).holds s)
    (hleads : (lifespans finished).leads s t) :
    (lifespans finished).holds t ∧ (lifespans finished).leads s t :=
  ⟨fun h hh => (hover h hh).ages hleads.1, hleads⟩

theorem permits_lifespans : (lifespans finished).Permits where
  known _ _ := trivial
  amend h hf _ hs := lifespans_changed hs
    ⟨.modify h fun c => (hf c).life, fun a ha => (handleAt?_modify _ _ _).trans ha⟩
  assign _ _ _ _ hs := lifespans_changed hs
    ⟨.modify _ fun _ => Or.inl rfl, fun a ha => (handleAt?_modify _ _ _).trans ha⟩
  add {s} title type _ hs := by
    refine lifespans_changed hs ⟨.add (Composite.isAlive_fresh title type), fun a ha => ?_⟩
    obtain ⟨hthere, hfirst⟩ := handleAt?_eq_some_iff.mp ha
    refine handleAt?_eq_some_iff.mpr ⟨?_, hfirst⟩
    obtain ⟨c, hc⟩ := contains_iff.mp hthere
    refine contains_of_get? ((get?_add_ne _ ?_).trans hc)
    rintro rfl
    rw [get?_next] at hc
    cases hc

/-- How a machine is left by the end of a life. -/
structure Ended (m : Machine) (h : Handle) (m' : Machine) : Prop where
  ages : m.store.Ages m'.store
  first : ∀ a, a ≠ h → m.store.handleAt? 0 = some a → m'.store.handleAt? 0 = some a
  gone : m'.store.get? h = none
  scopes : m'.scopes = m.scopes
  control : m'.control = m.control

theorem removeFromStore_ended {m₀ : Machine} (ha : m₀.store.isAlive h = true)
    (hm : (lifespans finished).After { m₀ with store := m₀.store.dead h } () m) :
    Agree False m (removeFromStore h) (removeFromStore h) fun _ => Ended m₀ h := by
  obtain ⟨c, hget, halive⟩ := isAlive_iff.mp ha
  obtain ⟨hages, d, hd⟩ := Ages.ending hget halive hm.leads.1
  have hgone : (m.store.free h).get? h = none := by rw [get?_free, if_pos rfl]
  have hfirst : ∀ a, a ≠ h → m₀.store.handleAt? 0 = some a →
    (m.store.free h).handleAt? 0 = some a := by
    intro a hne ha
    obtain ⟨hthere, hindex⟩ := handleAt?_eq_some_iff.mp
      (hm.leads.2 a ((handleAt?_modify _ _ _).trans ha))
    refine handleAt?_eq_some_iff.mpr ⟨?_, hindex⟩
    obtain ⟨e, he⟩ := contains_iff.mp hthere
    exact contains_of_get? ((get?_free_ne hne).trans he)
  obtain ⟨reports, hremove⟩ := removeFromStore_eq (contains_of_get? hd)
  exact Agree.of_eq hremove ⟨hages, hfirst, hgone, hm.scopes, hm.control⟩

section Ending

variable {r r' : Rules} (hc : (lifespans finished).Collecting r r')
  (ho : (lifespans finished).Obeys r r')

include hc ho

/-- A life that is not over ends for good, if what is run meanwhile ends no life that is over. -/
theorem destroyNow_ended (ha : m.store.isAlive h = true)
    (hover : (lifespans finished).holds (m.store.dead h)) :
    Agree False m (destroyNow r h) (destroyNow r' h) fun _ => Ended m h := by
  have hp : (lifespans finished).Permits := permits_lifespans
  have hm : (lifespans finished).Fits { m with store := m.store.dead h } := fits_lifespans hover
  refine destroyNow_agrees ha (.refl hm knows_lifespans)
    (runDeinitializer_keeps (hp.admits hc) ho trivial hm)
    fun m₁ h₁ => Agree.store_bind ?_
  refine (Keeps.forM (fun _ _ _ _ => hp.release hc h _) (h₁.fits hm)).bind fun _ m₂ h₂ => ?_
  exact removeFromStore_ended ha (h₁.trans h₂)

/-- A life that is over does not end again. -/
theorem destroyNow_keeps_lifespans (hfirst : m.store.handleAt? 0 ≠ some h) :
    (lifespans finished).Keeps m (destroyNow r h) (destroyNow r' h) := by
  intro hm
  by_cases ha : m.store.isAlive h = true
  · refine (destroyNow_ended hc ho ha fun x hx => (hm.holds x hx).die h).mono fun _ m' hended => ?_
    have hleads : (lifespans finished).leads m.store m'.store := by
      refine ⟨hended.ages, fun a hslot => hended.first a ?_ hslot⟩
      rintro rfl
      exact hfirst hslot
    exact ⟨(lifespans_changed hm.holds hleads).1, hleads, hended.scopes, hended.control,
      knows_lifespans, trivial⟩
  · exact destroyNow_idle ha (.refl hm knows_lifespans)

end Ending

/-- The outermost namespace is a root. -/
theorem handleAt?_ne_of_lost (hlost : m.isRetained h = false) : m.store.handleAt? 0 ≠ some h := by
  intro hfirst
  have hroot : h ∈ m.roots := by simp [Machine.roots, Machine.global?, hfirst]
  have hretained : m.isRetained h = true := by simp [Machine.isRetained, Store.reaches, hroot]
  rw [hlost] at hretained
  cases hretained

theorem endsAgain_eq_false (hover : (lifespans finished).holds m.store) :
    m.endsAgain finished h = false := by
  by_cases hmem : h ∈ finished
  · simp [Machine.endsAgain, (hover h hmem).2]
  · simp [Machine.endsAgain, hmem]

/-- At every depth the store ages, and no life that is over is ended again. -/
theorem obeys_lifespans (finished : List Handle) (depth : Nat) :
    (lifespans finished).Obeys (rules depth) (watched (Machine.endsAgain finished) depth) ∧
      (lifespans finished).Collecting (rules depth)
        (watched (Machine.endsAgain finished) depth) := by
  induction depth with
  | zero => exact ⟨obeys_zero, collecting_of_destroy fun _ => Keeps.exhausted⟩
  | succ depth ih =>
    obtain ⟨ho, hc⟩ := ih
    refine ⟨(permits_lifespans.admits hc).obeys ho, fun {m} h hm => Agree.get_bind ?_⟩
    split
    · rename_i hreleased
      obtain ⟨_, hlost⟩ := Bool.and_eq_true_iff.mp hreleased
      have hkeeps :=
        destroyNow_keeps_lifespans hc ho (handleAt?_ne_of_lost (by simpa using hlost)) hm
      rw [Agree, watched_destroy, endsAgain_eq_false hm.holds]
      exact hkeeps
    · exact Agree.pure (.refl hm knows_lifespans)

end Discipline

open Discipline

/-! ## Runs -/

/-- What a run leaves of a store whose generations are far from running out. -/
structure Store.Aged (s t : Store) : Prop where
  size : s.size ≤ t.size
  gaps : ∀ (i generation : Nat), s.cells[i]? = some ⟨generation, none⟩ →
    t.cells[i]? = some ⟨generation, none⟩
  lives : ∀ (i generation : Nat) (c : Composite), s.cells[i]? = some ⟨generation, some c⟩ →
    (∃ d : Composite, t.cells[i]? = some ⟨generation, some d⟩ ∧
      (c.life = .idle → d.life ≠ .creating)) ∨
      t.cells[i]? = some ⟨generation + 1, none⟩
  later : ∀ (i : Nat) (cell : Cell), s.size ≤ i → t.cells[i]? = some cell →
    (∃ c, cell = ⟨0, some c⟩) ∨ cell = ⟨1, none⟩
  lively : ∀ h c, t.get? h = some c → c.life ≠ .destroyed
  first : s.size ≠ 0 → t.handleAt? 0 = s.handleAt? 0

theorem Composite.life_ne_destroyed_iff {c : Composite} :
    c.life ≠ .destroyed ↔ c.isAlive = true := by
  simp [Composite.isAlive]

/-- The first slot keeps what it holds, and a gap if it is one. -/
theorem Store.handleAt?_zero_of_leads {s t : Store} {finished : List Handle}
    (hleads : (lifespans finished).leads s t)
    (hsize : s.size ≠ 0) : t.handleAt? 0 = s.handleAt? 0 := by
  cases hfirst : s.handleAt? 0 with
  | some h => exact hleads.2 h hfirst
  | none =>
    obtain ⟨⟨generation, _ | c⟩, hcell⟩ := lt_size_iff.mp (Nat.pos_of_ne_zero hsize)
    · obtain ⟨cell, hcell', hage⟩ := hleads.1.old hcell
      cases hage
      simp [handleAt?, hcell']
    · simp [handleAt?, hcell] at hfirst

theorem Store.aged_of_leads {s t : Store} {finished : List Handle}
    (hleads : (lifespans finished).leads s t) (hgenerations : ∀ (i : Nat) (cell : Cell),
      s.cells[i]? = some cell → cell.generation < 4294967295)
    (hlively : ∀ h c, s.get? h = some c → c.life ≠ .destroyed) : s.Aged t where
  size := hleads.1.size_le
  gaps i generation hcell := by
    obtain ⟨cell, hcell', hage⟩ := hleads.1.old hcell
    cases hage
    exact hcell'
  lives i generation c hcell := by
    obtain ⟨cell, hcell', hage⟩ := hleads.1.old hcell
    cases hage with
    | lives hcontinues =>
      refine Or.inl ⟨_, hcell', fun hidle => ?_⟩
      rcases hcontinues with hsame | ⟨hcreating, _⟩
      · rw [hsame, hidle]
        exact nofun
      · rw [hidle] at hcreating
        cases hcreating
    | ended =>
      have hnext : nextGeneration generation = generation + 1 := by
        have hsmall : generation < 4294967295 := hgenerations i _ hcell
        exact Nat.mod_eq_of_lt (by omega)
      rw [hnext] at hcell'
      exact Or.inr hcell'
  later i cell hi hcell := by
    rcases hleads.1.new hi hcell with hgap | ⟨c, hc, _⟩
    · exact Or.inr hgap
    · exact Or.inl ⟨c, hc⟩
  lively h d hd := by
    rw [Composite.life_ne_destroyed_iff]
    by_cases hlt : h.index < s.size
    · obtain ⟨c, hc, hcontinues⟩ := hleads.1.get? hlt hd
      exact hcontinues.isAlive.trans (Composite.life_ne_destroyed_iff.mp (hlively h c hc))
    · rcases hleads.1.new (Nat.not_lt.mp hlt) (get?_eq_some_iff.mp hd) with hgap | ⟨c, hc, halive⟩
      · exact nomatch congrArg Cell.composite hgap
      · obtain rfl : d = c := Option.some.inj (congrArg Cell.composite hc)
        exact halive
  first hsize := handleAt?_zero_of_leads hleads hsize

/-- A run, begun when a life is over, does not end that life again, and it is over afterwards; a
    handle that named nothing still names nothing. -/
def LeavesOver {α : Type} (m : Machine) (h : Handle) (x y : Run α) : Prop :=
  Agree False m x y fun _ m' => m'.store.IsOver h ∧ (m.store.get? h = none → m'.store.get? h = none)

section Over

variable {m : Machine} {h : Handle} (hover : m.store.IsOver h)

include hover

theorem leavesOver_of_leads {α : Type} {x y : Run α}
    (hxy : Agree False m x y fun _ m' => (lifespans [h]).leads m.store m'.store) :
      LeavesOver m h x y :=
  hxy.mono fun _ _ hleads =>
    ⟨hover.ages hleads.1, fun hnone => hleads.1.get?_eq_none hover.1 hnone⟩

theorem fits_over : (lifespans [h]).Fits m := fits_lifespans fun x hx => by
  rw [List.mem_singleton.mp hx]
  exact hover

theorem runModule_leavesOver (depth : Nat) (tree : Node) :
    LeavesOver m h (runModule (rules depth) tree)
      (runModule (watched (Machine.endsAgain [h]) depth) tree) := by
  obtain ⟨ho, hc⟩ := obeys_lifespans [h] depth
  refine leavesOver_of_leads hover ?_
  exact (runModule_keeps (permits_lifespans.admits hc) ho tree (fits_over hover)).mono
    fun _ _ h => h.leads

theorem flow_leavesOver {α : Type} [Held α] {K : TransferKind → Prop} {x y : Flow α}
    (hxy : (lifespans [h]).Flows K m x y) (hopen : IsOpen m.control) :
      LeavesOver m h x.outcome y.outcome :=
  leavesOver_of_leads hover ((hxy (fits_over hover) hopen).mono fun _ _ h => h.leads)

end Over

/-- Ending a life does not end it once more meanwhile, and leaves it over. -/
theorem destroyNow_ends_once (depth : Nat) {m : Machine} {h : Handle}
    (hlt : h.index < m.store.size) :
    Agree False m (destroyNow (rules depth) h)
      (destroyNow (watched (Machine.endsAgain [h]) depth) h)
      fun _ m' => m'.store.IsOver h := by
  obtain ⟨ho, hc⟩ := obeys_lifespans [h] depth
  by_cases halive : m.store.isAlive h = true
  · have hover : (lifespans [h]).holds (m.store.dead h) := by
      intro x hx
      rw [List.mem_singleton.mp hx]
      exact isOver_of_marked halive
    refine (destroyNow_ended hc ho halive hover).mono fun _ m' hended => ?_
    refine ⟨Nat.lt_of_lt_of_le hlt hended.ages.size_le, ?_⟩
    simp [Store.isAlive, hended.gone]
  · exact destroyNow_idle halive ⟨hlt, Bool.eq_false_iff.mpr halive⟩

/-- A module that runs to its end on a seed leaves no slot out: gaps are as they were, composites
    live on under their handles or leave gaps one generation on, new slots are in their first life
    or past it.  Nothing is left dying, no life goes backwards, and the first slot keeps its handle.
    Hence, at any moment of any run, what names nothing stays so, and a life that has begun to end,
    or has ended, is not ended again: under a watch that refuses this, everything
    runs as it does without. -/
theorem lives_go_one_way {seed : Store} (hgenerations : ∀ (i : Nat) (cell : Cell),
      seed.cells[i]? = some cell → cell.generation < 4294967295)
    (hlively : ∀ h c, seed.get? h = some c → c.life ≠ .destroyed) (preferences : Preferences)
    (tokens : Array Token) (depth : Nat) (tree : Node) {m : Machine}
    (hrun : runModule (rules depth) tree { Machine.withStore seed preferences with tokens } =
      .ok ((), m)) :
    seed.Aged m.store ∧
    (∀ (m : Machine) (h : Handle), m.store.IsOver h →
      (∀ tree, LeavesOver m h (runModule (rules depth) tree)
        (runModule (watched (Machine.endsAgain [h]) depth) tree)) ∧
      (m.control.frames ≠ [] → m.control.isExplicit = false →
        (∀ node scope, LeavesOver m h ((rules depth).eval node scope).outcome
          ((watched (Machine.endsAgain [h]) depth).eval node scope).outcome) ∧
        (∀ scope nodes, LeavesOver m h (executeStatements (rules depth) scope nodes).outcome
          (executeStatements (watched (Machine.endsAgain [h]) depth) scope nodes).outcome) ∧
        (∀ call, LeavesOver m h ((rules depth).call call).outcome
          ((watched (Machine.endsAgain [h]) depth).call call).outcome))) ∧
    (∀ (m : Machine) (h : Handle), h.index < m.store.size →
      Agree False m (destroyNow (rules depth) h)
        (destroyNow (watched (Machine.endsAgain [h]) depth) h)
        fun _ m' => m'.store.IsOver h) := by
  refine ⟨?_, fun m h hover => ⟨runModule_leavesOver hover depth, fun hframe hidle => ?_⟩,
    fun m h hlt => destroyNow_ends_once depth hlt⟩
  · obtain ⟨ho, hc⟩ := obeys_lifespans [] depth
    have hfits : (lifespans []).Fits { Machine.withStore seed preferences with tokens } :=
      fits_lifespans fun _ hh => nomatch hh
    have hafter := (runModule_keeps (permits_lifespans.admits hc) ho tree hfits).post hrun
    exact aged_of_leads hafter.leads hgenerations hlively
  · obtain ⟨ho, hc⟩ := obeys_lifespans [h] depth
    have hopen := isOpen_of_isExplicit hframe hidle
    refine ⟨fun node scope => ?_, fun scope nodes => ?_, fun call => ?_⟩
    · exact flow_leavesOver hover (ho.eval node trivial) hopen
    · exact flow_leavesOver hover
        (executeStatements_flows ((permits_lifespans.admits hc).minds ho) nodes trivial) hopen
    · exact flow_leavesOver hover (ho.call knows_lifespans) hopen

/-- The outermost namespace holds a function behind a gap. -/
def wornStore : Store :=
  let held : Overload := { type := .empty, value := some (.reference ⟨2, 5⟩) }
  let global : Composite :=
    { Composite.fresh (some "Global") (.ofKind .namespace) with
      members := Assoc.empty.put "x" [held] }
  let function : Composite :=
    { Composite.fresh (some "f") (.ofKind .function) with links := { retainers := [⟨0, 0⟩] } }
  ⟨#[⟨0, some global⟩, ⟨3, none⟩, ⟨5, some function⟩]⟩

/-- The function is forgotten: behind the old gap there is a new one, one generation on. -/
theorem lives_go_one_way_forgotten :
    let forget : Node := .bare (.module [Sketch.assignment "x" (.bare .nilLiteral)])
    (∀ (i : Nat) (cell : Cell), wornStore.cells[i]? = some cell → cell.generation < 4294967295) ∧
    (∀ h c, wornStore.get? h = some c → c.life ≠ .destroyed) ∧ ∃ m,
      runModule (rules 20) forget (.withStore wornStore {}) = .ok ((), m) ∧
        m.store.cells.toList.map (fun cell => (cell.generation, cell.composite.isSome)) =
          [(0, true), (3, false), (6, false), (0, true), (0, true), (0, true)] ∧
        wornStore.Aged m.store := by
  intro forget
  have hgenerations : ∀ (i : Nat) (cell : Cell), wornStore.cells[i]? = some cell →
      cell.generation < 4294967295 := by
    intro i cell hcell
    have hall : ∀ cell ∈ wornStore.cells, cell.generation < 4294967295 := by decide
    exact hall cell (Array.mem_of_getElem? hcell)
  have hlively : ∀ h c, wornStore.get? h = some c → c.life ≠ .destroyed := by
    rw [forall_get?_iff]
    decide
  have hcells : (runModule (rules 20) forget (.withStore wornStore {})).toOption.map
      (fun result => result.2.store.cells.toList.map fun cell =>
        (cell.generation, cell.composite.isSome)) =
        some [(0, true), (3, false), (6, false), (0, true), (0, true),
          (0, true)] := by decide +kernel
  obtain ⟨⟨⟩, m, hrun, hm⟩ := Run.exists_ok_of_map hcells
  exact ⟨hgenerations, hlively, m, hrun, hm,
    (lives_go_one_way hgenerations hlively {} #[] 20 forget hrun).1⟩

end CompositeGraph
