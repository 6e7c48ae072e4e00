/-
  REMNANTS: what is left of a store while composites are taken away.

  A collection never changes a link.  Entries of lists are struck off one by one; whenever that
  leaves a composite without a root it begins to die, and is freed when it has been struck off every
  list itself.  So all that happens to a composite is that it loses retainers,
  begins to die or goes.

    1. REMNANTS.   `Store.Remnant`: composites out of reach are taken away.
    2. KEEPING.    What is kept when an entry is struck off, and when everything lives.
    3. LIVING.     How many composites live, which bounds how deep a collection goes.
    4. WEAR.       `Store.Worn`: slots lose composites, composites lose retainers or begin to die.
                   What is left is known from who lives, who is dying and who is listed.
-/
import CompositeGraph.Proofs.Reachability
import CompositeGraph.Proofs.Symmetry

namespace CompositeGraph

/-! ## Remnants -/

/-- A composite but for its life and its retainers. -/
def Composite.kernel (c : Composite) : Composite := { c.bare with life := .idle }

/-- What depends on neither is the same for composites with the same kernel. -/
theorem Composite.view_of_kernel {α : Type} {c d : Composite} (h : c.kernel = d.kernel)
    (view : Composite → α) (hview : ∀ c : Composite, view c.kernel = view c) : view c = view d := by
  rw [← hview c, ← hview d, h]

namespace Store

variable {s : Store} {roots : List Handle}

/-- Whether links lead from a root to a composite. -/
abbrev Reachable (s : Store) (roots : List Handle) (h : Handle) : Prop :=
  s.Linked (fun _ => true) roots h

/-- What may be left of a store: composites out of reach are taken away, or dying, and the lists of
    retainers are other ones. -/
structure Remnant (roots : List Handle) (T s : Store) : Prop where
  size : s.size = T.size
  kernel : ∀ h c, s.get? h = some c → ∃ d, T.get? h = some d ∧ c.kernel = d.kernel
  reached : ∀ h, T.Reachable roots h → T.contains h = true → s.isAlive h = true

/-! ## Keeping -/

/-- The store with an entry struck off a list. -/
abbrev struck (s : Store) (a b : Handle) : Store :=
  s.modify b fun c => c.mapRetainers fun l => l.filter (· != a)

variable {a b h : Handle}

theorem Kept.of_struck (hh : (s.struck a b).Kept roots h) : s.Kept roots h :=
  hh.mono (fun _ _ hx => (Paired.mem_retainers_strike.mp hx).1) fun _ => id

/-- If everything lives and no entry is extra, what is kept is within reach. -/
theorem Kept.reachable {missing : Edges} (hpaired : s.Paired missing noEdges)
    (hlively : ∀ d, s.isDying d = false) (hh : s.Kept roots h) : s.Reachable roots h := by
  induction hh with
  | root hm => exact .root hm
  | @retained e h hlisted _ ih =>
    obtain ⟨_, hthere, hlink⟩ := hpaired.linked e h hlisted
    have halive : s.isAlive e = true :=
      (contains_iff_alive_or_dying.mp hthere).resolve_right (by rw [hlively e]; exact nofun)
    exact .link rfl ((hlink halive).resolve_right id) (contains_of_mem_retainers hlisted) ih

/-! ## Living -/

/-- The composites that live. -/
def living (s : Store) : Finset Handle := ((s.live.filter fun e => e.2.isAlive).map (·.1)).toFinset

theorem mem_living {h : Handle} : h ∈ s.living ↔ s.isAlive h = true := by
  simp only [living, List.mem_toFinset, List.mem_map, List.mem_filter, isAlive_iff]
  constructor
  · rintro ⟨⟨k, c⟩, ⟨hlive, hc⟩, rfl⟩
    exact ⟨c, mem_live.mp hlive, hc⟩
  · rintro ⟨c, hc, halive⟩
    exact ⟨(h, c), ⟨mem_live.mpr hc, halive⟩, rfl⟩

theorem card_living_le_size : s.living.card ≤ s.size := by
  rw [← Finset.length_toList]
  refine length_le_size (Finset.nodup_toList _) fun h hh => ?_
  exact contains_of_isAlive (mem_living.mp (Finset.mem_toList.mp hh))

/-- A composite fewer lives when one has begun to die. -/
theorem card_living_die {y : Handle} (hy : s.isAlive y = true) :
    (s.dead y).living.card < s.living.card := by
  refine Finset.card_lt_card ⟨fun k hk => ?_, fun hsub => ?_⟩
  · rw [mem_living] at hk ⊢
    exact (isAlive_dead.mp hk).1
  · exact (isAlive_dead.mp (mem_living.mp (hsub (mem_living.mpr hy)))).2 rfl

end Store

/-! ## Wear -/

/-- A composite loses retainers, and may begin to die. -/
def Composite.Wears (c d : Composite) : Prop :=
  ∃ keep : Handle → Bool, ∃ life : Life, (life = c.life ∨ life = .destroyed) ∧
    d = { c.mapRetainers (List.filter keep) with life }

namespace Composite.Wears

variable {c d e : Composite}

theorem strike (a : Handle) : c.Wears (c.mapRetainers fun l => l.filter (· != a)) :=
  ⟨(· != a), c.life, Or.inl rfl, rfl⟩

theorem refl : c.Wears c := by
  refine ⟨fun _ => true, c.life, Or.inl rfl, ?_⟩
  rw [Composite.mapRetainers, List.filter_true]

theorem die : c.Wears { c with life := .destroyed } := by
  refine ⟨fun _ => true, .destroyed, Or.inr rfl, ?_⟩
  rw [Composite.mapRetainers, List.filter_true]

theorem trans (h : c.Wears d) (h' : d.Wears e) : c.Wears e := by
  obtain ⟨keep, life, hlife, rfl⟩ := h
  obtain ⟨keep', life', hlife', rfl⟩ := h'
  refine ⟨fun x => keep' x && keep x, life', ?_, ?_⟩
  · rcases hlife' with h | h
    · exact h ▸ hlife
    · exact Or.inr h
  · simp only [Composite.mapRetainers, List.filter_filter]

theorem kernel (h : c.Wears d) : d.kernel = c.kernel := by
  obtain ⟨_, _, _, rfl⟩ := h
  rfl

/-- Two that one composite is worn down to are the same if both live or neither, with the same
    retainers. -/
theorem eq (h : c.Wears d) (h' : c.Wears e) (hlife : d.isAlive = e.isAlive)
    (hretainers : ∀ a, a ∈ d.links.retainers ↔ a ∈ e.links.retainers) : d = e := by
  obtain ⟨keep, life, hl, rfl⟩ := h
  obtain ⟨keep', life', hl', rfl⟩ := h'
  have hlives : life = life' := by
    simp only [Composite.isAlive] at hlife
    rcases hl with rfl | rfl
    · rcases hl' with rfl | rfl
      · rfl
      · simpa using hlife
    · rcases hl' with rfl | rfl
      · have hdead : c.life = .destroyed := by simpa using hlife.symm
        exact hdead.symm
      · rfl
  have hlists : c.links.retainers.filter keep = c.links.retainers.filter keep' := by
    refine List.filter_congr fun a ha => ?_
    have hiff := hretainers a
    simp only [Composite.mapRetainers, List.mem_filter, ha, true_and] at hiff
    exact Bool.eq_iff_iff.mpr hiff
  rw [hlives]
  simp only [Composite.mapRetainers, hlists]

end Composite.Wears

/-- A slot stays a gap, keeps its composite as it is worn down, or loses it. -/
inductive Cell.Wears : Cell → Cell → Prop where
  | gap {generation : Nat} : Wears ⟨generation, none⟩ ⟨generation, none⟩
  | worn {generation : Nat} {c d : Composite} : c.Wears d →
      Wears ⟨generation, some c⟩ ⟨generation, some d⟩
  | freed {generation : Nat} {c : Composite} :
      Wears ⟨generation, some c⟩ ⟨Store.nextGeneration generation, none⟩

theorem Cell.Wears.refl (cell : Cell) : cell.Wears cell := by
  obtain ⟨generation, _ | c⟩ := cell
  · exact .gap
  · exact .worn .refl

theorem Cell.Wears.trans {a b c : Cell} (h : a.Wears b) (h' : b.Wears c) : a.Wears c := by
  cases h with
  | gap => exact h'
  | worn h =>
    cases h' with
    | worn h' => exact .worn (h.trans h')
    | freed => exact .freed
  | freed =>
    cases h' with
    | gap => exact .freed

namespace Store

variable {s t u : Store} {roots : List Handle}

/-- Every slot is worn down. -/
structure Worn (s t : Store) : Prop where
  size : t.size = s.size
  cells : ∀ (i : Nat) (c d : Cell), s.cells[i]? = some c → t.cells[i]? = some d → c.Wears d

namespace Worn

theorem refl (s : Store) : s.Worn s :=
  ⟨rfl, fun _ c _ hc hd => Option.some.inj (hc.symm.trans hd) ▸ Cell.Wears.refl c⟩

theorem trans (h : s.Worn t) (h' : t.Worn u) : s.Worn u where
  size := h'.size.trans h.size
  cells i c e hc he := by
    have hlt : i < t.cells.size := by
      rw [← Store.size, ← h'.size]
      exact (Array.getElem?_eq_some_iff.mp he).1
    have hd := Array.getElem?_eq_getElem hlt
    exact (h.cells i c _ hc hd).trans (h'.cells i _ e hd he)

/-- One slot is worn down. -/
theorem of_modify {i : Nat} {f : Cell → Cell} (hf : ∀ c, Cell.Wears c (f c)) :
    s.Worn ⟨s.cells.modify i f⟩ where
  size := by simp [Store.size]
  cells j c d hc hd := by
    rw [Array.getElem?_modify, hc] at hd
    split at hd
    · exact Option.some.inj hd ▸ hf c
    · exact Option.some.inj hd ▸ Cell.Wears.refl c

theorem modify {h : Handle} {f : Composite → Composite} (hf : ∀ c : Composite, c.Wears (f c)) :
    s.Worn (s.modify h f) := by
  refine of_modify fun c => ?_
  split
  · obtain ⟨generation, _ | c⟩ := c
    · exact .gap
    · exact .worn (hf c)
  · exact Cell.Wears.refl c

theorem free (h : Handle) : s.Worn (s.free h) := by
  refine of_modify fun c => ?_
  split
  · rename_i hc
    obtain ⟨generation, _ | c⟩ := c
    · cases hc.2
    · exact .freed
  · exact Cell.Wears.refl c

/-- What is left of a composite. -/
theorem get? (h : s.Worn t) {x : Handle} {d : Composite} (hd : t.get? x = some d) :
    ∃ c, s.get? x = some c ∧ c.Wears d := by
  have hlt : x.index < s.cells.size := by
    rw [← Store.size, ← h.size]
    exact index_lt_size hd
  obtain ⟨cell₀, hc⟩ : ∃ cell, s.cells[x.index]? = some cell := ⟨_, Array.getElem?_eq_getElem hlt⟩
  simp only [Store.get?] at hd ⊢
  split at hd
  · rename_i cell hcell
    have hw := h.cells _ _ _ hc hcell
    split at hd
    · rename_i hgeneration
      rw [hc]
      dsimp only
      cases hw with
      | gap => cases hd
      | worn hw => exact ⟨_, if_pos hgeneration, Option.some.inj hd ▸ hw⟩
      | freed => cases hd
    · cases hd
  · cases hd

theorem contains (h : s.Worn t) {x : Handle} (hx : t.contains x = true) : s.contains x = true := by
  obtain ⟨d, hd⟩ := contains_iff.mp hx
  obtain ⟨c, hc, _⟩ := h.get? hd
  exact contains_of_get? hc

/-- Two stores that one is worn down to are the same if they agree on who lives, who is dying and
    who is listed. -/
theorem eq (ht : s.Worn t) (hu : s.Worn u) (halive : ∀ h, t.isAlive h = true ↔ u.isAlive h = true)
    (hdying : ∀ h, t.isDying h = u.isDying h)
    (hlisted : ∀ a b, a ∈ t.retainers b ↔ a ∈ u.retainers b) : t = u := by
  have hcontains : ∀ h, t.contains h = u.contains h := by
    intro h
    refine Bool.eq_iff_iff.mpr ?_
    rw [contains_iff_alive_or_dying, contains_iff_alive_or_dying, halive h, hdying h]
  have hcells : t.cells = u.cells := by
    refine Array.ext_getElem? fun i => ?_
    by_cases hi : i < s.cells.size
    · have hit : i < t.cells.size := by rw [← Store.size, ht.size]; exact hi
      have hiu : i < u.cells.size := by rw [← Store.size, hu.size]; exact hi
      have hct := ht.cells i _ _ (Array.getElem?_eq_getElem hi) (Array.getElem?_eq_getElem hit)
      have hcu := hu.cells i _ _ (Array.getElem?_eq_getElem hi) (Array.getElem?_eq_getElem hiu)
      have htcell := Array.getElem?_eq_getElem hit
      have hucell := Array.getElem?_eq_getElem hiu
      rw [htcell, hucell]
      generalize s.cells[i] = c at hct hcu
      generalize t.cells[i] = d at hct htcell
      generalize u.cells[i] = e at hcu hucell
      -- A slot that one of them has lost and the other has not would be told apart by its handle.
      cases hct with
      | gap => cases hcu; rfl
      | @worn generation c d hw =>
        have hd : t.get? ⟨i, generation⟩ = some d := by simp [Store.get?, htcell]
        cases hcu with
        | @worn _ _ e hw' =>
          have he : u.get? ⟨i, generation⟩ = some e := by simp [Store.get?, hucell]
          have hlife : d.isAlive = e.isAlive := by
            refine Bool.eq_iff_iff.mpr ?_
            have h := halive ⟨i, generation⟩
            rwa [isAlive, isAlive, hd, he] at h
          rw [hw.eq hw' hlife fun a => by
            have h := hlisted a ⟨i, generation⟩
            rwa [retainers_of_get? hd, retainers_of_get? he] at h]
        | freed =>
          have h := hcontains ⟨i, generation⟩
          simp [Store.contains, Store.get?, htcell, hucell] at h
      | @freed generation c =>
        cases hcu with
        | @worn _ _ e hw' =>
          have h := hcontains ⟨i, generation⟩
          simp [Store.contains, Store.get?, htcell, hucell] at h
        | freed => rfl
    · rw [Array.getElem?_eq_none (by rw [← Store.size, ht.size]; exact Nat.le_of_not_lt hi),
        Array.getElem?_eq_none (by rw [← Store.size, hu.size]; exact Nat.le_of_not_lt hi)]
  cases t
  cases u
  rw [Store.mk.injEq]
  exact hcells

end Worn

end Store

end CompositeGraph
