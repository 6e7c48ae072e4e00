/-
  LAWS OF THE STORE: what each change does to what a handle names.

  Everything said about a store later on is said through a few views of it, each a function of a
  handle: the composite it names, whether that is alive, what it is linked to and who retains it.

    1. VIEWS.    `isAlive`, `isDying`, `references`, beside `get?`, `contains` and `retainers`.
    2. CHANGES.  `get?` after `modify`, `add` and `free`; a change that leaves a view alone; the
                 beginning of a death.
    3. LISTING.  `live` lists exactly what handles name, `handleAt?` gives the
handle of a slot. -/
import CompositeGraph.Store.Walk

namespace CompositeGraph.Store

variable (s : Store)

/-! ## Views -/

/-- Whether a handle names a composite whose life has not ended. -/
def isAlive (h : Handle) : Bool := (s.get? h).any Composite.isAlive

/-- Whether a handle names a composite whose life has ended, but that is still in its slot. -/
def isDying (h : Handle) : Bool := (s.get? h).any fun composite => !composite.isAlive

/-- Everything a composite is linked to; nothing if the handle is stale. -/
def references (h : Handle) : List Handle := ((s.get? h).map Composite.references).getD []

variable {s}

variable {h : Handle}

/-- A handle is in the store if it finds a composite. -/
theorem contains_iff : s.contains h = true ↔ ∃ c, s.get? h = some c := by
  simp [contains, Option.isSome_iff_exists]

variable {c : Composite}

theorem contains_of_get? (hc : s.get? h = some c) : s.contains h = true :=
  contains_iff.mpr ⟨c, hc⟩

theorem isAlive_iff : s.isAlive h = true ↔ ∃ c, s.get? h = some c ∧ c.isAlive = true := by
  simp [isAlive, Option.any_eq_true]

theorem isDying_iff :
    s.isDying h = true ↔ ∃ c, s.get? h = some c ∧ c.isAlive = false := by
  simp [isDying, Option.any_eq_true]

/-- What a handle names is alive or dying. -/
theorem contains_iff_alive_or_dying :
    s.contains h = true ↔ s.isAlive h = true ∨ s.isDying h = true := by
  rw [contains_iff, isAlive_iff, isDying_iff]
  constructor
  · rintro ⟨c, hc⟩
    cases ha : c.isAlive with
    | true => exact Or.inl ⟨c, hc, ha⟩
    | false => exact Or.inr ⟨c, hc, ha⟩
  · rintro (⟨c, hc, _⟩ | ⟨c, hc, _⟩) <;> exact ⟨c, hc⟩

theorem contains_of_isAlive (ha : s.isAlive h = true) : s.contains h = true :=
  contains_iff_alive_or_dying.mpr (Or.inl ha)

theorem contains_of_isDying (hd : s.isDying h = true) : s.contains h = true :=
  contains_iff_alive_or_dying.mpr (Or.inr hd)

/-- Nothing is both alive and dying. -/
theorem isDying_eq_false_of_isAlive (ha : s.isAlive h = true) : s.isDying h = false := by
  obtain ⟨c, hc, hl⟩ := isAlive_iff.mp ha
  simp [isDying, hc, hl]

theorem references_of_get? (hc : s.get? h = some c) :
    s.references h = c.references := by simp [references, hc]

theorem retainers_of_get? (hc : s.get? h = some c) :
    s.retainers h = c.links.retainers := by simp [retainers, hc]

/-- Only what is there is retained. -/
theorem contains_of_mem_retainers {a b : Handle} (h : a ∈ s.retainers b) : s.contains b = true := by
  cases hb : s.get? b with
  | none => simp [retainers, hb] at h
  | some c => exact contains_of_get? hb

theorem retainers_eq_nil {b : Handle} (h : ¬s.contains b = true) : s.retainers b = [] :=
  List.eq_nil_iff_forall_not_mem.mpr fun _ ha => h (contains_of_mem_retainers ha)

/-- Only what is there is linked to anything. -/
theorem contains_of_mem_references {a b : Handle} (h : b ∈ s.references a) :
    s.contains a = true := by
  cases ha : s.get? a with
  | none => simp [references, ha] at h
  | some c => exact contains_of_get? ha

theorem index_lt_size (hc : s.get? h = some c) : h.index < s.size := by
  unfold get? at hc
  split at hc
  · rename_i cell hcell
    exact (Array.getElem?_eq_some_iff.mp hcell).1
  · exact absurd hc (by simp)

theorem index_lt_size_of_contains (hc : s.contains h = true) : h.index < s.size := by
  obtain ⟨c, hc⟩ := contains_iff.mp hc
  exact index_lt_size hc

/-- A slot holds one composite at a time, so the index decides the handle. -/
theorem eq_of_index_eq {a b : Handle} (ha : s.contains a = true) (hb : s.contains b = true)
    (hi : a.index = b.index) : a = b := by
  obtain ⟨c, hc⟩ := contains_iff.mp ha
  obtain ⟨d, hd⟩ := contains_iff.mp hb
  unfold get? at hc hd
  rw [hi] at hc
  split at hc
  · rename_i cell hcell
    simp only [hcell] at hd
    have hga : cell.generation = a.generation := by
      by_cases hg : cell.generation = a.generation
      · exact hg
      · rw [if_neg hg] at hc; exact absurd hc (by simp)
    have hgb : cell.generation = b.generation := by
      by_cases hg : cell.generation = b.generation
      · exact hg
      · rw [if_neg hg] at hd; exact absurd hd (by simp)
    cases a; cases b; simp_all
  · exact absurd hc (by simp)

/-! ## Changes -/

/-- Changing one composite leaves the others; one that is missing stays missing. -/
theorem get?_modify (h x : Handle) (f : Composite → Composite) :
    (s.modify h f).get? x = if x = h then (s.get? h).map f else s.get? x := by
  simp only [get?, modify, Array.getElem?_modify]
  by_cases hi : h.index = x.index
  · rw [if_pos hi, hi]
    cases hc : s.cells[x.index]? with
    | none => simp
    | some cell =>
      by_cases hg : cell.generation = h.generation
      · simp only [Option.map_some, hg, if_true]
        by_cases hx : h.generation = x.generation
        · have hxh : x = h := by cases x; cases h; simp_all
          simp [hxh]
        · have hxh : x ≠ h := by rintro rfl; exact hx rfl
          simp [hxh, hx]
      · by_cases hx : x = h
        · simp [hx, hg]
        · simp [hg, hx]
  · have hx : x ≠ h := by rintro rfl; exact hi rfl
    rw [if_neg hi, if_neg hx]

theorem get?_modify_self (f : Composite → Composite)
    (hc : s.get? h = some c) : (s.modify h f).get? h = some (f c) := by
  rw [get?_modify, if_pos rfl, hc]; rfl

theorem get?_modify_ne {h x : Handle} (f : Composite → Composite) (hx : x ≠ h) :
    (s.modify h f).get? x = s.get? x := by rw [get?_modify, if_neg hx]

@[simp] theorem size_modify (h : Handle) (f : Composite → Composite) :
    (s.modify h f).size = s.size := by
  simp [modify, size]

@[simp] theorem contains_modify (h x : Handle) (f : Composite → Composite) :
    (s.modify h f).contains x = s.contains x := by
  unfold contains
  rw [get?_modify]
  split
  · rename_i hx; rw [hx]; simp
  · rfl

/-- Only what a change makes of the composite itself matters. -/
theorem modify_congr {f g : Composite → Composite} (hfg : ∀ c, s.get? h = some c → f c = g c) :
    s.modify h f = s.modify h g := by
  refine congrArg Store.mk (Array.ext_getElem? fun i => ?_)
  rw [Array.getElem?_modify, Array.getElem?_modify]
  split
  · rename_i hi
    subst hi
    cases hc : s.cells[h.index]? with
    | none => rfl
    | some cell =>
      rw [Option.map_some, Option.map_some]
      split
      · rename_i hg
        cases hcell : cell.composite with
        | none => rfl
        | some c =>
          have hget : s.get? h = some c := by simp [get?, hc, hg, hcell]
          rw [Option.map_some, Option.map_some, hfg c hget]
      · rfl
  · rfl

/-- A change that leaves the composite as it is, or that a stale handle asks for. -/
theorem modify_eq_self {f : Composite → Composite} (hf : ∀ c, s.get? h = some c → f c = c) :
    s.modify h f = s := by
  rw [modify_congr (g := id) hf]
  refine congrArg Store.mk (Array.ext_getElem? fun i => ?_)
  rw [Array.getElem?_modify]
  split
  · cases s.cells[i]? with
    | none => rfl
    | some cell => simp
  · rfl

/-- The handle that a new composite gets. -/
def next (s : Store) : Handle := ⟨s.size, 0⟩

/-- A new composite is found under the next handle, which found nothing before. -/
theorem get?_add (c : Composite) (x : Handle) :
    (s.add c).1.get? x = if x = s.next then some c else s.get? x := by
  simp only [get?, add, Array.getElem?_push]
  by_cases hi : x.index = s.cells.size
  · rw [if_pos hi]
    have hn : s.cells[x.index]? = none := by rw [hi]; simp
    by_cases hg : x.generation = 0
    · have hx : x = s.next := by cases x; simp_all [next, size]
      have hg' : 0 = x.generation := hg.symm
      simp only [if_pos hx, if_pos hg']
    · have hx : x ≠ s.next := by rintro rfl; exact hg rfl
      have hg' : ¬0 = x.generation := fun h => hg h.symm
      simp only [if_neg hx, if_neg hg', hn]
  · have hx : x ≠ s.next := by rintro rfl; exact hi rfl
    rw [if_neg hi, if_neg hx]

theorem get?_add_self (c : Composite) :
    (s.add c).1.get? s.next = some c := by rw [get?_add, if_pos rfl]

theorem get?_add_ne (c : Composite) {x : Handle} (hx : x ≠ s.next) :
    (s.add c).1.get? x = s.get? x := by
  rw [get?_add, if_neg hx]

@[simp] theorem size_add (c : Composite) : (s.add c).1.size = s.size + 1 := by simp [add, size]

/-- The handle of a new composite names nothing before. -/
theorem get?_next : s.get? s.next = none := by
  cases h : s.get? s.next with
  | none => rfl
  | some c => exact absurd (index_lt_size h) (by simp [next])

/-- A slot freed finds nothing under its old handle. -/
theorem get?_free (h x : Handle) : (s.free h).get? x = if x = h then none else s.get? x := by
  simp only [get?, free, Array.getElem?_modify]
  by_cases hi : h.index = x.index
  · rw [if_pos hi]
    cases hc : s.cells[x.index]? with
    | none => simp
    | some cell =>
      by_cases hx : x = h
      · subst hx
        by_cases hg : cell.generation = x.generation
        · cases hs : cell.composite with
          | none => simp [hg, hs]
          | some c => simp [hg, hs]
        · simp [hg]
      · by_cases hg : cell.generation = h.generation ∧ cell.composite.isSome
        · have hne : ¬cell.generation = x.generation := by
            intro he
            exact hx (by cases x; cases h; simp_all)
          simp only [Option.map_some, if_pos hg, if_neg hx, if_neg hne]
          split <;> rfl
        · simp [hx, hg]
  · have hx : x ≠ h := by rintro rfl; exact hi rfl
    rw [if_neg hi, if_neg hx]

theorem get?_free_ne {h x : Handle} (hx : x ≠ h) : (s.free h).get? x = s.get? x := by
  rw [get?_free, if_neg hx]

@[simp] theorem size_free (h : Handle) : (s.free h).size = s.size := by simp [free, size]

/-! ### Changes that leave a view alone -/

section Keeping

variable {h : Handle} {f : Composite → Composite}

/-- A view of composites that a change leaves alone is the same everywhere. -/
theorem view_modify {β : Type} {view : Composite → β} (hf : ∀ c, view (f c) = view c) (x : Handle) :
    ((s.modify h f).get? x).map view = (s.get? x).map view := by
  rw [get?_modify]
  split
  · rename_i hx
    rw [hx, Option.map_map]
    exact congrArg (Option.map · _) (funext hf)
  · rfl

theorem retainers_modify (hf : ∀ c, (f c).links.retainers = c.links.retainers) (x : Handle) :
    (s.modify h f).retainers x = s.retainers x := by
  have hview : ∀ t : Store, t.retainers x = ((t.get? x).map (·.links.retainers)).getD [] := by
    intro t
    unfold retainers
    cases t.get? x <;> rfl
  rw [hview, hview, view_modify hf]

theorem references_modify (hf : ∀ c, (f c).references = c.references) (x : Handle) :
    (s.modify h f).references x = s.references x := congrArg (·.getD []) (view_modify hf x)

theorem isAlive_modify (hf : ∀ c, (f c).isAlive = c.isAlive) (x : Handle) :
    (s.modify h f).isAlive x = s.isAlive x := by
  have hview := congrArg (·.any id) (view_modify (s := s) (h := h) hf x)
  rwa [Option.any_map, Option.any_map] at hview

theorem isDying_modify (hf : ∀ c, (f c).isAlive = c.isAlive) (x : Handle) :
    (s.modify h f).isDying x = s.isDying x := by
  have hview := congrArg (·.any not) (view_modify (s := s) (h := h) hf x)
  rwa [Option.any_map, Option.any_map] at hview

theorem retainers_modify_ne {x : Handle} (hx : x ≠ h) :
    (s.modify h f).retainers x = s.retainers x := by
  unfold retainers; rw [get?_modify_ne f hx]

theorem references_modify_ne {x : Handle} (hx : x ≠ h) :
    (s.modify h f).references x = s.references x := by
  unfold references; rw [get?_modify_ne f hx]

theorem isAlive_modify_ne {x : Handle} (hx : x ≠ h) : (s.modify h f).isAlive x = s.isAlive x := by
  unfold isAlive; rw [get?_modify_ne f hx]

theorem isDying_modify_ne {x : Handle} (hx : x ≠ h) : (s.modify h f).isDying x = s.isDying x := by
  unfold isDying; rw [get?_modify_ne f hx]

end Keeping

/-! ### Dying -/

section Dying

variable {y h : Handle}

/-- The store in which a composite has begun to die. -/
abbrev dead (s : Store) (y : Handle) : Store := s.modify y fun c => { c with life := .destroyed }

theorem retainers_dead (b : Handle) : (s.dead y).retainers b = s.retainers b :=
  retainers_modify (s := s) (h := y) (f := fun c => { c with life := .destroyed }) (fun _ => rfl) b

theorem references_dead (b : Handle) : (s.dead y).references b = s.references b :=
  references_modify (s := s) (h := y) (f := fun c => { c with life := .destroyed }) (fun _ => rfl) b

/-- Marking ends one life. -/
theorem isAlive_dead : (s.dead y).isAlive h = true ↔ s.isAlive h = true ∧ h ≠ y := by
  by_cases hhy : h = y
  · rw [hhy]
    cases hc : s.get? y with
    | none => simp [isAlive, get?_modify, hc]
    | some c => simp [isAlive, get?_modify_self _ hc, Composite.isAlive]
  · rw [isAlive_modify_ne hhy]
    simp [hhy]

theorem isDying_dead (hy : s.contains y = true) :
    (s.dead y).isDying h = true ↔ s.isDying h = true ∨ h = y := by
  by_cases hhy : h = y
  · obtain ⟨c, hc⟩ := contains_iff.mp hy
    rw [hhy]
    simp [isDying, get?_modify_self _ hc, Composite.isAlive]
  · rw [isDying_modify_ne hhy]
    simp [hhy]

end Dying

/-! ## Listing -/

/-- The live composites are those that handles name. -/
theorem mem_live : (h, c) ∈ s.live ↔ s.get? h = some c := by
  unfold live get?
  rw [List.mem_filterMap]
  constructor
  · rintro ⟨⟨cell, index⟩, hmem, hmap⟩
    rw [List.mk_mem_zipIdx_iff_getElem?] at hmem
    obtain ⟨d, hd, heq⟩ := Option.map_eq_some_iff.mp hmap
    cases heq
    rw [Array.getElem?_toList] at hmem
    simp [hmem, hd]
  · intro hget
    split at hget
    · rename_i cell hcell
      split at hget
      · rename_i hg
        refine ⟨(cell, h.index), ?_, ?_⟩
        · rw [List.mk_mem_zipIdx_iff_getElem?, Array.getElem?_toList]
          exact hcell
        · simp [hget, hg]
      · exact absurd hget (by simp)
    · exact absurd hget (by simp)

/-- The handle of a slot names what is in it. -/
theorem handleAt?_eq_some_iff {index : Nat} :
    s.handleAt? index = some h ↔ s.contains h = true ∧ h.index = index := by
  unfold handleAt?
  constructor
  · intro hh
    split at hh
    · rename_i generation c hcell
      cases hh
      exact ⟨contains_of_get? (c := c) (by simp [get?, hcell]), rfl⟩
    · cases hh
  · rintro ⟨hthere, rfl⟩
    obtain ⟨c, hc⟩ := contains_iff.mp hthere
    unfold get? at hc
    split at hc
    · rename_i cell hcell
      split at hc
      · rename_i hg
        obtain ⟨generation, composite⟩ := cell
        subst hc hg
        rw [hcell]
      · cases hc
    · cases hc

theorem contains_of_handleAt? {index : Nat} (hh : s.handleAt? index = some h) :
    s.contains h = true := (handleAt?_eq_some_iff.mp hh).1

/-- A composite that is changed stays in its slot. -/
theorem handleAt?_modify (h : Handle) (f : Composite → Composite) (i : Nat) :
    (s.modify h f).handleAt? i = s.handleAt? i :=
  Option.ext fun a => by rw [handleAt?_eq_some_iff, handleAt?_eq_some_iff, contains_modify]

end CompositeGraph.Store
