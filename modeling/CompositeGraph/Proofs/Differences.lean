/-
  DIFFERENCES: settling the links in which two lists differ settles all of them.

  After the links of a composite have been changed, it is enough to list those that are new and to
  strike off those that are gone; one that is in both lists needs neither.  New links may be listed
  in any order.  Old ones may be struck off in any order too, since what falls with one of them
  falls with all of them, as long as nothing is run in between and nothing that is kept is dying.

    1. LISTING.      A composite is put into several lists.
    2. CHANGED.      A symmetric store in which the links of one composite have changed.
    3. SETTLING.     New links are listed and then old ones struck off.
    4. RECONCILING.  Only those links that differ, in order and once each.
-/
import CompositeGraph.Proofs.Removal

namespace CompositeGraph

open Run Store Sketch

/-! ## Listing -/

namespace Store

variable {s t : Store} {a b : Handle} {new new' : List Handle}

theorem Symmetric.mem_retainers_iff (h : s.Symmetric) :
    a ∈ s.retainers b ↔ s.contains b = true ∧ a ≠ b ∧ b ∈ s.references a := by
  constructor
  · intro ha
    obtain ⟨c, hc⟩ := contains_iff.mp (contains_of_mem_retainers ha)
    rw [retainers_of_get? hc] at ha
    obtain ⟨hne, hd⟩ := ((h b c hc).2 a).mp ha
    exact ⟨contains_of_get? hc, hne, exists_get?_iff.mp hd⟩
  · rintro ⟨hb, hne, hlink⟩
    obtain ⟨c, hc⟩ := contains_iff.mp hb
    rw [retainers_of_get? hc]
    exact ((h b c hc).2 a).mpr ⟨hne, exists_get?_iff.mpr hlink⟩

theorem isDying_of_lively (h : ∀ b c, s.get? b = some c → c.isAlive = true) (d : Handle) :
    s.isDying d = false := by
  refine Bool.eq_false_iff.mpr fun hd => ?_
  obtain ⟨c, hc, hdead⟩ := isDying_iff.mp hd
  rw [h d c hc] at hdead
  cases hdead

/-- Two stores are the same if their slots are as old and hold the same. -/
theorem eq_of_get?
    (hages : ∀ i : Nat, (s.cells[i]?).map Cell.generation = (t.cells[i]?).map Cell.generation)
    (hget : ∀ h, s.get? h = t.get? h) : s = t := by
  have hcells : s.cells = t.cells := by
    refine Array.ext_getElem? fun i => ?_
    have hage := hages i
    cases hs : s.cells[i]? with
    | none =>
      rw [hs] at hage
      exact (Option.map_eq_none_iff.mp hage.symm).symm
    | some c =>
      rw [hs, Option.map_some] at hage
      obtain ⟨d, ht, hgeneration⟩ := Option.map_eq_some_iff.mp hage.symm
      have hcomposite := hget ⟨i, c.generation⟩
      simp only [get?, hs, ht, hgeneration] at hcomposite
      rw [ht]
      cases c
      cases d
      simp_all
  cases s
  cases t
  rw [mk.injEq]
  exact hcells

theorem ages_modify (h : Handle) (f : Composite → Composite) (i : Nat) :
    ((s.modify h f).cells[i]?).map Cell.generation = (s.cells[i]?).map Cell.generation := by
  simp only [modify, Array.getElem?_modify]
  split
  · cases s.cells[i]? with
    | none => rfl
    | some c =>
      simp only [Option.map_some]
      split <;> rfl
  · rfl

/-- The store in which a composite is in the list of another. -/
def listing (s : Store) (a y : Handle) : Store :=
  if a = y then s else s.modify y fun c => c.mapRetainers (Paired.adding a)

theorem bare?_listing (y h : Handle) : (s.listing a y).bare? h = s.bare? h := by
  unfold listing
  split
  · rfl
  · exact bare?_mapRetainers y h _

/-- The store in which a composite is in the lists of some others. -/
def listedIn (s : Store) (a : Handle) (new : List Handle) : Store := new.foldl (·.listing a ·) s

theorem listedIn_cons (y : Handle) : s.listedIn a (y :: new) = (s.listing a y).listedIn a new := rfl

theorem bare?_listedIn (h : Handle) : (s.listedIn a new).bare? h = s.bare? h := by
  induction new generalizing s with
  | nil => rfl
  | cons y new ih => rw [listedIn_cons, ih, bare?_listing]

theorem ages_listedIn (i : Nat) :
    ((s.listedIn a new).cells[i]?).map Cell.generation = (s.cells[i]?).map Cell.generation := by
  induction new generalizing s with
  | nil => rfl
  | cons y new ih =>
    rw [listedIn_cons, ih, listing]
    split
    · rfl
    · exact ages_modify y _ i

theorem size_listedIn : (s.listedIn a new).size = s.size := by
  induction new generalizing s with
  | nil => rfl
  | cons y new ih =>
    rw [listedIn_cons, ih, listing]
    split
    · rfl
    · exact size_modify _ _

theorem adding_adding (retainers : List Handle) :
    Paired.adding a (Paired.adding a retainers) = Paired.adding a retainers := by
  have hmem : a ∈ Paired.adding a retainers := Paired.mem_adding.mpr (Or.inr rfl)
  rw [Paired.adding, if_pos (List.contains_iff_mem.mpr hmem)]

/-- To be listed twice is to be listed once. -/
theorem get?_listedIn (h : Handle) : (s.listedIn a new).get? h =
    if a ≠ h ∧ h ∈ new then (s.get? h).map fun c =>
      c.mapRetainers (Paired.adding a) else s.get? h := by
  have htwice : ((fun c : Composite => c.mapRetainers (Paired.adding a)) ∘
      fun c : Composite => c.mapRetainers (Paired.adding a)) = fun c =>
        c.mapRetainers (Paired.adding a) := by
    funext c
    simp only [Function.comp_apply, Composite.mapRetainers, adding_adding]
  induction new generalizing s with
  | nil => simp [listedIn]
  | cons y new ih =>
    rw [listedIn_cons, ih, listing]
    by_cases hay : a = y
    · have hiff : a ≠ h ∧ h ∈ y :: new ↔ a ≠ h ∧ h ∈ new := by
        rw [List.mem_cons, ← hay]
        exact and_congr_right fun hne => or_iff_right fun heq => hne heq.symm
      simp only [if_pos hay, hiff]
    · rw [if_neg hay]
      by_cases hhy : h = y
      · subst hhy
        rw [get?_modify, if_pos rfl, if_pos (And.intro hay List.mem_cons_self),
          Option.map_map, htwice]
        split <;> rfl
      · rw [get?_modify_ne _ hhy]
        simp only [List.mem_cons, hhy, false_or]

theorem mem_retainers_listedIn {x : Handle} : x ∈ (s.listedIn a new).retainers b ↔
    x ∈ s.retainers b ∨ x = a ∧ a ≠ b ∧ b ∈ new ∧ s.contains b = true := by
  have hcontains : (s.listedIn a new).contains b = s.contains b :=
    contains_of_bare? (bare?_listedIn b)
  cases hc : s.get? b with
  | none =>
    have hgone : ¬s.contains b = true := by simp [contains, hc]
    rw [retainers_eq_nil (by rwa [hcontains]), retainers_eq_nil hgone]
    simp [hgone]
  | some c =>
    have hget : (s.listedIn a new).get? b = _ := get?_listedIn b
    rw [hc] at hget
    rw [retainers_of_get? hc]
    by_cases hlisted : a ≠ b ∧ b ∈ new
    · rw [if_pos hlisted, Option.map_some] at hget
      rw [retainers_of_get? hget, Composite.mapRetainers, Paired.mem_adding]
      simp [hlisted, contains_of_get? hc]
    · rw [if_neg hlisted] at hget
      rw [retainers_of_get? hget]
      tauto

/-- Lists that hold the composite already, and the order of the others, do not matter. -/
theorem listedIn_congr (hsub : ∀ y ∈ new', y ∈ new)
    (hsup : ∀ y ∈ new, a ≠ y → s.contains y = true → y ∈ new' ∨ a ∈ s.retainers y) :
    s.listedIn a new' = s.listedIn a new := by
  refine eq_of_get? (fun i => (ages_listedIn i).trans (ages_listedIn i).symm) fun h => ?_
  rw [get?_listedIn, get?_listedIn]
  by_cases hmem' : h ∈ new'
  · simp only [hmem', hsub h hmem']
  · rw [if_neg fun hh => hmem' hh.2]
    split
    · rename_i hh
      cases hc : s.get? h with
      | none => rfl
      | some c =>
        have hlisted := (hsup h hh.2 hh.1 (contains_of_get? hc)).resolve_left hmem'
        rw [retainers_of_get? hc] at hlisted
        rw [Option.map_some, Composite.mapRetainers, Paired.adding,
          if_pos (List.contains_iff_mem.mpr hlisted)]
    · rfl

end Store

theorem retainOrRelease_listing {r : Rules} {m : Machine} {a y : Handle}
    (ha : m.store.isAlive a = true) (hlink : y ∈ m.store.references a) :
    retainOrRelease r a y m = .ok ((), { m with store := m.store.listing a y }) := by
  show (if m.retains a y then retain a y else release r a y) m = _
  rw [if_pos (Machine.retains_iff.mpr ⟨ha, hlink⟩), retain, Store.listing]
  split <;> rfl

/-- Links that are there are listed one after the other. -/
theorem forM_retainOrRelease_listedIn {r : Rules} {m : Machine} {a : Handle} {new : List Handle}
    (ha : m.store.isAlive a = true) (hlinks : ∀ y ∈ new, y ∈ m.store.references a) :
    new.forM (retainOrRelease r a) m = .ok ((), { m with store := m.store.listedIn a new }) := by
  induction new generalizing m with
  | nil => rfl
  | cons y new ih =>
    have hbare := bare?_listing (s := m.store) (a := a) y a
    show (retainOrRelease r a y m).bind (fun p => new.forM (retainOrRelease r a) p.2) = _
    rw [retainOrRelease_listing ha (hlinks y List.mem_cons_self)]
    refine ih ((isAlive_of_bare? hbare).trans ha) fun z hz => ?_
    show z ∈ (m.store.listing a y).references a
    rw [references_of_bare? hbare]
    exact hlinks z (List.mem_cons_of_mem _ hz)

theorem missingFrom_nil (others : List Handle) : missingFrom others [] = [] := by simp [missingFrom]

/-- Two that are the wrong way round are put in order. -/
theorem missingFrom_pair {a b : Handle} (hle : b.le a = false) (hne : b ≠ a) :
    missingFrom [] [b, a] = [a, b] := by
  have hall : [b, a].filter (fun handle => !([] : List Handle).contains handle) = [b, a] := rfl
  have hsorted : [b, a].mergeSort Handle.le = [a, b] := by
    simp [List.mergeSort, List.MergeSort.Internal.splitInTwo, hle]
  rw [missingFrom, hall, hsorted, List.eraseDups_cons]
  simp [hne, List.eraseDups_cons]

/-! ## Changed -/

/-- Roots are handles, and the outermost namespace stays in its slot. -/
theorem Machine.roots_modify (m : Machine) (h : Handle) (f : Composite → Composite) :
    ({ m with store := m.store.modify h f } : Machine).roots = m.roots := by
  rw [Machine.roots, Machine.global?, handleAt?_modify]
  rfl

/-- The links of a composite have changed in a symmetric store, and no list has been touched.
    Neither the links before nor those after lead from a root to a composite that is dying. -/
structure Changed (s : Store) (a : Handle) (c : Composite) (f : Composite → Composite)
    (new old : List Handle) (m : Machine) : Prop where
  symmetric : s.Symmetric
  there : s.get? a = some c
  replaces : c.Replaces f new old
  store : m.store = s.modify a f
  retained : m.isRetained a = true
  dying : ∀ d, s.isDying d = true → ¬s.Reachable m.roots d ∧ ¬m.store.Reachable m.roots d

namespace Changed

variable {s : Store} {a : Handle} {c : Composite} {f : Composite → Composite}
  {new old : List Handle} {m : Machine}
  (h : Changed s a c f new old m)

include h

/-- It is enough to look at the links that differ. -/
theorem reconciled : Changed s a c f (missingFrom old new) (missingFrom new old) m :=
  { h with replaces := h.replaces.reconciled }

theorem retainers (b : Handle) : m.store.retainers b = s.retainers b := by
  rw [h.store]
  exact retainers_modify (s := s) (h := a) h.replaces.retainers b

theorem contains (b : Handle) : m.store.contains b = s.contains b := by
  rw [h.store, contains_modify]

theorem isDying (b : Handle) : m.store.isDying b = s.isDying b := by
  rw [h.store, isDying_modify h.replaces.life]

theorem references_self : m.store.references a = (f c).references := by
  rw [h.store, references_of_get? (get?_modify_self f h.there)]

theorem references_ne {x : Handle} (hx : x ≠ a) :
    m.store.references x = s.references x := by
  rw [h.store, references_modify_ne hx]

theorem kept : s.Kept m.roots a :=
  (reaches_iff.mp h.retained).mono (fun x y hxy => by rwa [h.retainers] at hxy) fun _ => id

theorem reachable_before {x : Handle} (hx : s.Kept m.roots x) :
    s.Reachable m.roots x := by
  induction hx with
  | root hm => exact .root hm
  | retained hl _ ih =>
    obtain ⟨hthere, _, hlink⟩ := h.symmetric.mem_retainers_iff.mp hl
    exact .link rfl hlink hthere ih

/-- The links of the composite itself play no part in what keeps it. -/
theorem reachable_self : m.store.Reachable m.roots a := by
  have hor : ∀ x, s.Kept m.roots x → m.store.Reachable m.roots x ∨ m.store.Reachable m.roots a := by
    intro x hx
    induction hx with
    | root hm => exact Or.inl (.root hm)
    | @retained y x hl _ ih =>
      rcases ih with ih | ih
      · by_cases hya : y = a
        · exact Or.inr (hya ▸ ih)
        · obtain ⟨hthere, _, hlink⟩ := h.symmetric.mem_retainers_iff.mp hl
          exact Or.inl (.link rfl (by rwa [h.references_ne hya]) (by rwa [h.contains]) ih)
      · exact Or.inr ih
  exact (hor a h.kept).elim id id

theorem isAlive_of_reachable {x : Handle} (hx : m.store.Reachable m.roots x)
    (hthere : m.store.contains x = true) : m.store.isAlive x = true := by
  refine (contains_iff_alive_or_dying.mp hthere).resolve_right fun hd => ?_
  rw [h.isDying] at hd
  exact (h.dying x hd).2 hx

theorem isAlive_self : m.store.isAlive a = true := by
  refine h.isAlive_of_reachable h.reachable_self ?_
  rw [h.contains]
  exact contains_of_get? h.there

/-- Once the new links are listed, every link that is there is. -/
theorem listed {x b : Handle} (hlink : b ∈ m.store.references x)
    (hthere : m.store.contains b = true) (hne : x ≠ b) :
      x ∈ (m.store.listedIn a new).retainers b := by
  rw [mem_retainers_listedIn, h.retainers]
  by_cases hxa : x = a
  · subst hxa
    rw [h.references_self] at hlink
    rcases h.replaces.come b hlink with hb | hb
    · rw [h.contains] at hthere
      exact Or.inl
        (h.symmetric.mem_retainers_iff.mpr ⟨hthere, hne, by rwa [references_of_get? h.there]⟩)
    · exact Or.inr ⟨rfl, hne, hb, hthere⟩
  · rw [h.references_ne hxa] at hlink
    rw [h.contains] at hthere
    exact Or.inl (h.symmetric.mem_retainers_iff.mpr ⟨hthere, hne, hlink⟩)

/-- What the lists keep then is what the links lead to, those before or those after. -/
theorem reachable_of_kept_listed {x : Handle} (hx : (m.store.listedIn a new).Kept m.roots x) :
      s.Reachable m.roots x ∨ m.store.Reachable m.roots x := by
  induction hx with
  | root hm => exact Or.inl (.root hm)
  | @retained y x hl _ ih =>
    rw [mem_retainers_listedIn, h.retainers] at hl
    rcases hl with hl | ⟨rfl, _, hmem, hthere⟩
    · obtain ⟨hthere, _, hlink⟩ := h.symmetric.mem_retainers_iff.mp hl
      by_cases hya : y = a
      · subst hya
        exact Or.inl (.link rfl hlink hthere (h.reachable_before h.kept))
      · rcases ih with ih | ih
        · exact Or.inl (.link rfl hlink hthere ih)
        · exact Or.inr (.link rfl (by rwa [h.references_ne hya]) (by rwa [h.contains]) ih)
    · refine Or.inr (.link rfl ?_ hthere h.reachable_self)
      rw [h.references_self]
      exact h.replaces.new_mem x hmem

/-- The old links that are gone. -/
abbrev gone (a : Handle) (old : List Handle) (m : Machine) : List Handle :=
  old.filter fun y => !(m.store.references a).contains y

/-- Then the old links may be struck off. -/
theorem releasing :
    m.Releasing (m.store.Reachable m.roots) a (gone a old m) { m with
      store := m.store.listedIn a new } := by
  have hbare : ∀ x, (m.store.listedIn a new).bare? x = m.store.bare? x := bare?_listedIn
  -- Each link on the way is listed by now, and none of them is among those that go.
  have hwithout : ∀ x, m.store.Reachable m.roots x →
      ((m.store.listedIn a new).struckAll a (gone a old m)).Kept m.roots x := by
    intro x hx
    induction hx with
    | root hm => exact .root hm
    | @link y x _ hlink hthere _ ih =>
      by_cases hyx : y = x
      · exact hyx ▸ ih
      · refine .retained (mem_retainers_struckAll.mpr ⟨h.listed hlink hthere hyx, ?_⟩) ih
        rintro ⟨rfl, hgone⟩
        have hnot := (List.mem_filter.mp hgone).2
        rw [List.contains_iff_mem.mpr hlink] at hnot
        cases hnot
  have hkernel : ∀ x d, (m.store.listedIn a new).get? x = some d →
      ∃ e, m.store.get? x = some e ∧ d.kernel = e.kernel := by
    intro x d hd
    rw [get?_listedIn] at hd
    split at hd
    · obtain ⟨e, he, rfl⟩ := Option.map_eq_some_iff.mp hd
      exact ⟨e, he, rfl⟩
    · exact ⟨d, hd, rfl⟩
  refine ⟨⟨rfl, rfl, rfl, ⟨size_listedIn, hkernel, ?_⟩, ?_, ?_⟩,
    Or.inl h.reachable_self, ?_, hwithout⟩
  · intro x hx hthere
    exact (isAlive_of_bare? (hbare x)).trans (h.isAlive_of_reachable hx hthere)
  · exact fun x hx => sheds_struckAll.kept (hwithout x hx)
  · intro d hd hk
    have hd := (isDying_of_bare? (hbare d)).symm.trans hd
    rw [h.isDying] at hd
    rcases h.reachable_of_kept_listed hk with hx | hx
    · exact (h.dying d hd).1 hx
    · exact (h.dying d hd).2 hx
  · intro _ hself
    rcases mem_retainers_listedIn.mp hself with hself | ⟨_, hne, _⟩
    · rw [h.retainers] at hself
      exact (h.symmetric.mem_retainers_iff.mp hself).2.1 rfl
    · exact hne rfl

/-- A link that was there before is listed already. -/
theorem listedIn_missingFrom :
    m.store.listedIn a (missingFrom old new) = m.store.listedIn a new := by
  refine listedIn_congr (fun y hy => (Composite.mem_missingFrom.mp hy).1) fun y hy hay hthere => ?_
  by_cases hold : y ∈ old
  · rw [h.contains] at hthere
    have hlink : y ∈ s.references a := by
      rw [references_of_get? h.there]
      exact h.replaces.old_mem y hold
    refine Or.inr ?_
    rw [h.retainers]
    exact h.symmetric.mem_retainers_iff.mpr ⟨hthere, hay, hlink⟩
  · exact Or.inl (Composite.mem_missingFrom.mpr ⟨hy, hold⟩)

/-- An old link that is not there any more is no new one either. -/
theorem mem_gone_missingFrom (y : Handle) :
    y ∈ gone a (missingFrom new old) m ↔ y ∈ gone a old m := by
  simp only [gone, List.mem_filter, Composite.mem_missingFrom]
  constructor
  · rintro ⟨⟨hold, _⟩, hnot⟩
    exact ⟨hold, hnot⟩
  · rintro ⟨hold, hnot⟩
    refine ⟨⟨hold, fun hnew => ?_⟩, hnot⟩
    rw [h.references_self, List.contains_iff_mem.mpr (h.replaces.new_mem y hnew)] at hnot
    cases hnot

end Changed

/-! ## Settling -/

/-- Settles all new links and then all old ones, as they come. -/
def Run.settleAll (r : Rules) (a : Handle) (old new : List Handle) : Run Unit := do
  new.forM (retainOrRelease r a)
  old.forM (retainOrRelease r a)

section Settling

variable {m₀ m : Machine} {spared : Handle → Prop} {depth : Nat} {a : Handle} {old : List Handle}

/-- What has not been taken away has its links. -/
theorem Store.Spares.references {T s : Store} (h : T.Spares spared s) (ha : s.isAlive a = true) :
    s.references a = T.references a := by
  obtain ⟨c, hc, _⟩ := isAlive_iff.mp ha
  obtain ⟨d, hd, hk⟩ := h.kernel a c hc
  rw [references_of_get? hc, references_of_get? hd]
  exact Composite.view_of_kernel hk Composite.references fun _ => rfl

/-- Where the entry is there already, the list stays as it is. -/
theorem Store.listing_of_listed {s : Store} {y : Handle}
    (hlisted : a ≠ y → s.contains y = true → a ∈ s.retainers y) : s.listing a y = s := by
  unfold Store.listing
  split
  · rfl
  · rename_i hay
    refine modify_eq_self fun c hc => ?_
    have hmem := hlisted hay (contains_of_get? hc)
    rw [retainers_of_get? hc] at hmem
    rw [Composite.mapRetainers, Store.Paired.adding, if_pos (List.contains_iff_mem.mpr hmem)]

/-- Old links are struck off one after the other, unless they are there still. -/
theorem forM_retainOrRelease_felled (hfells : Fells m₀ spared depth) (ha : spared a)
    (hthere : m₀.store.contains a = true) (hm : m₀.Releasing spared a (Changed.gone a old m₀) m)
    (hcard : m.store.living.card < depth)
    (hlisted : ∀ y ∈ old, y ∈ m₀.store.references a → a ≠ y → m.store.contains y = true →
      a ∈ m.store.retainers y) :
    Ends m (old.forM (retainOrRelease (rules depth) a)) fun _ m' =>
      m.Released m₀.roots a (Changed.gone a old m₀) m' := by
  induction old generalizing m with
  | nil => exact Ends.pure (.nil m)
  | cons y old ih =>
    have halive := hm.spares.alive a ha hthere
    have hlinks := hm.spares.references halive
    by_cases hlink : y ∈ m₀.store.references a
    · -- A link that is there still is listed already, so its step does nothing.
      have hself := listing_of_listed (hlisted y List.mem_cons_self hlink)
      have hskip : Changed.gone a (y :: old) m₀ = Changed.gone a old m₀ := by
        rw [Changed.gone, List.filter_cons_of_neg (by simpa using hlink)]
      rw [hskip] at hm ⊢
      refine Ends.bind (Q := fun _ m' => m' = m) ⟨(), m, ?_, rfl⟩ ?_
      · rw [retainOrRelease_listing halive (by rwa [hlinks]), hself]
      · rintro _ m' rfl
        exact ih hm hcard fun z hz => hlisted z (List.mem_cons_of_mem _ hz)
    · have htake : Changed.gone a (y :: old) m₀ = y :: Changed.gone a old m₀ := by
        rw [Changed.gone, List.filter_cons_of_pos (by simpa using hlink)]
      rw [htake] at hm ⊢
      have hstep : Ends m (retainOrRelease (rules depth) a y) fun _ m' =>
          m.Released m₀.roots a [y] m' := by
        refine Ends.get_bind ?_
        rw [if_neg fun hr => hlink (hlinks ▸ (Machine.retains_iff.mp hr).2)]
        exact release_felled hfells hm.head hcard
      refine Ends.bind hstep ?_
      rintro _ m₁ h₁
      refine (ih (hm.next h₁) (Nat.lt_of_le_of_lt h₁.sheds.card_living hcard) ?_).mono
        fun _ m₂ h₂ => hm.cons h₁ h₂
      intro z hzold hz haz hzthere
      have hzlisted := hlisted z (List.mem_cons_of_mem _ hzold) hz haz (h₁.worn.contains hzthere)
      refine (h₁.sheds.listed a z).mpr ⟨hzlisted, hm.head.not_fallsAll ha, ?_, ?_⟩
      · -- What has fallen is not there any more.
        intro hfallen
        rcases contains_iff_alive_or_dying.mp hzthere with hz' | hz'
        · exact ((h₁.sheds.alive z).mp hz').2 hfallen
        · rw [h₁.sheds.dying, isDying_eq_false_of_isAlive hfallen.isAlive] at hz'
          cases hz'
      · rintro ⟨_, hzy⟩
        exact hlink (List.mem_singleton.mp hzy ▸ hz)

/-- After the links of a composite have been changed, the new ones are listed and the old ones
    struck off. -/
theorem Changed.settle {s : Store} {c : Composite} {f : Composite → Composite} {new : List Handle}
    (h : Changed s a c f new old m) (hinert : m.Inert m.store) (hdepth : m.store.size < depth) :
    Ends m (settleAll (rules depth) a old new) fun _ m' =>
      ({ m with store := m.store.listedIn a new } : Machine).Released m.roots a
        (Changed.gone a old m) m' := by
  have hfells : Fells m (m.store.Reachable m.roots) depth :=
    fells_rules hinert.mute (fun _ hh => .root hh) depth
  have hthere : m.store.contains a = true := contains_of_isAlive h.isAlive_self
  have hlinks : ∀ y ∈ new, y ∈ m.store.references a := by
    intro y hy
    rw [h.references_self]
    exact h.replaces.new_mem y hy
  refine Ends.bind (Q := fun _ m' => m' = { m with store := m.store.listedIn a new })
    ⟨(), _, forM_retainOrRelease_listedIn h.isAlive_self hlinks, rfl⟩ ?_
  rintro _ _ rfl
  have hcard : (m.store.listedIn a new).living.card < depth := by
    have hle := card_living_le_size (s := m.store.listedIn a new)
    rw [size_listedIn] at hle
    omega
  refine forM_retainOrRelease_felled hfells h.reachable_self hthere h.releasing hcard
    fun y _ hy hay hyt => ?_
  exact h.listed hy (by rwa [← contains_of_bare? (bare?_listedIn y)]) hay

end Settling

/-! ## Reconciling -/

/-- To settle the links in which two lists differ, and to settle all of the new and then all of the
    old ones, leaves the same store. -/
theorem reconcile_settles_all {s : Store} {a : Handle} {c : Composite} {f : Composite → Composite}
    {new old : List Handle} {m : Machine} {depth : Nat} (h : Changed s a c f new old m)
    (hinert : m.Inert m.store) (hdepth : m.store.size < depth) :
    ∃ m₁ m₂, reconcile (rules depth) a old new m = .ok ((), m₁) ∧
      settleAll (rules depth) a old new m = .ok ((), m₂) ∧ m₁.store = m₂.store := by
  obtain ⟨_, m₁, hrun₁, h₁⟩ := h.reconciled.settle hinert hdepth
  obtain ⟨_, m₂, hrun₂, h₂⟩ := h.settle hinert hdepth
  refine ⟨m₁, m₂, ?_, hrun₂, ?_⟩
  · show forM (missingFrom old new ++ missingFrom new old) (retainOrRelease (rules depth) a) m = _
    rw [List.forM_append]
    exact hrun₁
  · rw [h.listedIn_missingFrom] at h₁
    refine Machine.Felled.store_eq (h₁.congr (fun x => ?_) fun x y _ _ _ => ?_) h₂
    · constructor
      · exact fun hx => hx.congr (fun _ => rfl) (fun _ _ => Iff.rfl) fun y _ =>
          h.mem_gone_missingFrom y
      · exact fun hx => hx.congr (fun _ => rfl) (fun _ _ => Iff.rfl) fun y _ =>
          (h.mem_gone_missingFrom y).symm
    · rw [h.mem_gone_missingFrom]

/-- A reference to a composite, as a member. -/
def holding (h : Handle) : Overload := { type := .empty, value := some (.reference h) }

/-- A composite with members that hold others, and the retainers that it lists. -/
def Sketch.made (title : String) (kind : Kind) (members : List (String × List Handle))
    (retainers : List Handle) : Composite :=
  { Composite.fresh (some title) (.ofKind kind) with
    links := { retainers },
    members := members.foldl (fun named entry => named.put entry.1 (entry.2.map holding)) .empty }

/-- The outermost namespace holds `A` twice and `B` once under one name; `A` and its object hold
    each other, and `B` holds `C`. -/
def shelf : Store :=
  ⟨#[⟨0, some (made "Global" .namespace [("d", [⟨1, 0⟩, ⟨2, 0⟩, ⟨1, 0⟩])] [])⟩,
    ⟨0, some (made "A" .namespace [("o", [⟨4, 0⟩])] [⟨0, 0⟩, ⟨4, 0⟩])⟩,
    ⟨0, some (made "B" .namespace [("c", [⟨3, 0⟩])] [⟨0, 0⟩])⟩,
    ⟨0, some (made "C" .namespace [] [⟨2, 0⟩])⟩,
    ⟨0, some (made "O" .object [("a", [⟨1, 0⟩])] [⟨1, 0⟩])⟩]⟩

/-- Under the name stand `B` and `C` now. -/
def reshelved (c : Composite) : Composite :=
  { c with members := c.members.put "d" [holding ⟨2, 0⟩, holding ⟨3, 0⟩] }

theorem reconcile_settles_all_shelf :
    let m := Machine.withStore (shelf.modify ⟨0, 0⟩ reshelved) {}
    let new : List Handle := [⟨2, 0⟩, ⟨3, 0⟩]
    let old : List Handle := [⟨1, 0⟩, ⟨2, 0⟩, ⟨1, 0⟩]
    (∃ c, Changed shelf ⟨0, 0⟩ c reshelved new old m) ∧ m.Inert m.store ∧ m.store.size < 6 ∧
      ∃ m₁ m₂, reconcile (rules 6) ⟨0, 0⟩ old new m = .ok ((), m₁) ∧
        settleAll (rules 6) ⟨0, 0⟩ old new m = .ok ((), m₂) ∧ m₁.store = m₂.store := by
  intro m new old
  have hlively : ∀ d, shelf.isDying d = false := isDying_of_lively (forall_get?_iff.mpr (by decide))
  have hchanged : Changed shelf ⟨0, 0⟩ (made "Global" .namespace [("d", old)] [])
    reshelved new old m := by
    refine ⟨by decide, rfl, ?_, rfl, by decide, fun d hd => ?_⟩
    · exact Composite.replaces_overloads _ (by decide) (by decide) (by decide) (by decide)
    · exact absurd hd (ne_true_of_eq_false (hlively d))
  have hinert : m.Inert m.store := Machine.inert_of_unnamed
    ⟨by decide, forall_get?_iff.mpr (by decide), forall_get?_iff.mpr (by decide)⟩
  have hdepth : m.store.size < 6 := by decide
  exact ⟨⟨_, hchanged⟩, hinert, hdepth, reconcile_settles_all hchanged hinert hdepth⟩

/-- Whether two runs come to their ends, and one of them leaves a composite that the
    other does not. -/
def Run.leaveApart (x y : Run Unit) (m : Machine) (h : Handle) : Bool :=
  match x m, y m with
  | .ok (_, m₁), .ok (_, m₂) => m₁.store.contains h != m₂.store.contains h
  | _, _ => false

/-- A function body that puts a new function under `x`. -/
def makesFunction : Statements :=
  .block [.bare (.sequence [.bare (.identifier "x"), .bare (.operator .between "="),
    .bare (.functionExpression ⟨[], none, none, some (.bare (.body []))⟩)])]

/-- `P` holds an object, and is the level above it.  Two functions could be the deinitializer of the
    object: that of `P` is virtual, and the object below `P` has nothing of that name; that of `Q`
    is behind it. -/
def levelledDeinit : List Request :=
  [.createNamespace (some "Global") none .own,
    .pushScope ⟨⟨0, 0⟩, none, none⟩,
    .createSelfLeveled (some "K") .class (some ⟨0, 0⟩),
    .mutate (.setMember ⟨0, 0⟩ "K" (holding ⟨1, 0⟩) .append),
    .createFunction (some "F") .none (some ⟨0, 0⟩),
    .createObject none ⟨1, 0⟩ none,
    .createNamespace (some "P") (some ⟨0, 0⟩) .missing,
    .createObject none ⟨1, 0⟩ none,
    .createNamespace (some "Q") (some ⟨0, 0⟩) .missing,
    .createFunction (some "G") makesFunction (some ⟨0, 0⟩),
    .mutate (.setMember ⟨4, 0⟩ "deinit" { holding ⟨2, 0⟩ with modifiers := ["virtual"] } .append),
    .setSlot ⟨4, 0⟩ .sub (some ⟨5, 0⟩),
    .setSlot ⟨4, 0⟩ .super (some ⟨6, 0⟩),
    .mutate (.setMember ⟨4, 0⟩ "o" (holding ⟨3, 0⟩) .append),
    .setSlot ⟨3, 0⟩ .super (some ⟨4, 0⟩),
    .mutate (.setMember ⟨6, 0⟩ "deinit" (holding ⟨7, 0⟩) .append),
    .mutate (.setMember ⟨0, 0⟩ "m" (holding ⟨4, 0⟩) .append),
    .mutate (.setMember ⟨0, 0⟩ "m" (holding ⟨3, 0⟩) .append),
    .mutate (.setMember ⟨0, 0⟩ "x" { type := .empty } .append)]

/-- The outermost namespace holds `T` and `S` under one name.  `T` holds `X`, which is dying, and
    that holds `S`. -/
def dyingBetween : Store :=
  ⟨#[⟨0, some (made "Global" .namespace [("m", [⟨2, 0⟩, ⟨1, 0⟩])] [])⟩,
    ⟨0, some (made "S" .namespace [] [⟨0, 0⟩, ⟨3, 0⟩])⟩,
    ⟨0, some (made "T" .namespace [("x", [⟨3, 0⟩])] [⟨0, 0⟩])⟩,
    ⟨0, some { made "X" .namespace [("s", [⟨1, 0⟩])] [⟨2, 0⟩] with life := .destroyed }⟩]⟩

/-- A name is taken out. -/
abbrev withoutMember (name : String) (c : Composite) : Composite :=
  { c with members := c.members.remove name }

/-- What a name of a composite stands for. -/
def Store.heldUnder (s : Store) (a : Handle) (name : String) : Option (List Handle) :=
  ((s.get? a).bind (·.members.get? name)).map (·.flatMap Overload.references)

theorem Store.replaces_of_heldUnder {s : Store} {a : Handle} {name : String} {old : List Handle}
    (h : s.heldUnder a name = some old) :
      ∃ c, s.get? a = some c ∧ c.Replaces (withoutMember name) [] old := by
  obtain ⟨overloads, hheld, rfl⟩ := Option.map_eq_some_iff.mp h
  obtain ⟨c, hc, hget⟩ := Option.bind_eq_some_iff.mp hheld
  exact ⟨c, hc, Composite.replaces_removeMember c hget⟩

/-- The order may matter if an object comes to have a deinitializer on the way, although none had
    one before; and if something dying is kept, although nothing has a deinitializer at all. -/
theorem reconcile_departs_from_settling_all :
    (∃ m₀ m c, session (rules 40) levelledDeinit (.fresh {}) = some m₀ ∧
      Changed m₀.store ⟨0, 0⟩ c (withoutMember "m") [] [⟨4, 0⟩, ⟨3, 0⟩] m ∧
      (∀ e ∈ m.store.live, e.2.is .object = true → m.deinitializer? e.1 = none) ∧
      leaveApart (reconcile (rules 40) ⟨0, 0⟩ [⟨4, 0⟩, ⟨3, 0⟩] [])
        (settleAll (rules 40) ⟨0, 0⟩ [⟨4, 0⟩, ⟨3, 0⟩] []) m
        ⟨7, 0⟩ = true) ∧
    ∃ m c, dyingBetween.Symmetric ∧ dyingBetween.get? ⟨0, 0⟩ = some c ∧
      c.Replaces (withoutMember "m") [] [⟨2, 0⟩, ⟨1, 0⟩] ∧
      m.store = dyingBetween.modify ⟨0, 0⟩ (withoutMember "m") ∧ m.isRetained ⟨0, 0⟩ = true ∧
      m.lookup.Unnamed "deinit" ∧
      leaveApart (reconcile (rules 40) ⟨0, 0⟩ [⟨2, 0⟩, ⟨1, 0⟩] [])
        (settleAll (rules 40) ⟨0, 0⟩ [⟨2, 0⟩, ⟨1, 0⟩] []) m
        ⟨1, 0⟩ = true := by
  -- The links that differ are sorted, which no evaluation of a run opens.
  have hsorted : missingFrom [] [⟨4, 0⟩, ⟨3, 0⟩] = [⟨3, 0⟩, ⟨4, 0⟩] :=
    missingFrom_pair (by decide) (by decide)
  have hsorted' : missingFrom [] [⟨2, 0⟩, ⟨1, 0⟩] = [⟨1, 0⟩, ⟨2, 0⟩] :=
    missingFrom_pair (by decide) (by decide)
  simp only [reconcile, hsorted, hsorted', missingFrom_nil, List.nil_append]
  constructor
  · have hcheck : (session (rules 40) levelledDeinit (.fresh {})).map (fun m₀ =>
        let m := { m₀ with store := m₀.store.modify ⟨0, 0⟩ (withoutMember "m") }
        decide (m₀.store.Symmetric ∧ (∀ e ∈ m₀.store.live, e.2.isAlive = true) ∧
          m₀.store.heldUnder ⟨0, 0⟩ "m" = some [⟨4, 0⟩, ⟨3, 0⟩] ∧ m.isRetained ⟨0, 0⟩ = true ∧
          (∀ e ∈ m.store.live, e.2.is .object = true → m.deinitializer? e.1 = none) ∧
          leaveApart (List.forM [⟨3, 0⟩, ⟨4, 0⟩] (retainOrRelease (rules 40) ⟨0, 0⟩))
            (settleAll (rules 40) ⟨0, 0⟩ [⟨4, 0⟩, ⟨3, 0⟩] []) m ⟨7, 0⟩ = true)) =
            some true := by decide +kernel
    obtain ⟨m₀, hsession, hall⟩ := Option.map_eq_some_iff.mp hcheck
    obtain ⟨hsymmetric, hlively, hheld, hretained, hmute, hapart⟩ := of_decide_eq_true hall
    obtain ⟨c, hc, hreplaces⟩ := replaces_of_heldUnder hheld
    refine ⟨m₀, _, c, hsession, ⟨hsymmetric, hc, hreplaces, rfl, hretained, fun d hd => ?_⟩,
      hmute, hapart⟩
    exact absurd hd (ne_true_of_eq_false (isDying_of_lively (forall_get?_iff.mpr hlively) d))
  · obtain ⟨c, hc, hreplaces⟩ := replaces_of_heldUnder
      (show dyingBetween.heldUnder ⟨0, 0⟩ "m" = some [⟨2, 0⟩, ⟨1, 0⟩] by decide)
    refine ⟨Machine.withStore (dyingBetween.modify ⟨0, 0⟩ (withoutMember "m")) {},
      c, by decide, hc, hreplaces, rfl, by decide, ⟨by decide, ?_, ?_⟩, by decide +kernel⟩
    · exact forall_get?_iff.mpr (by decide)
    · exact forall_get?_iff.mpr (by decide)

end CompositeGraph
