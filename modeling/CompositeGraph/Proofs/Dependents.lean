/-
  DEPENDENTS: what goes with a composite that nothing keeps.

  A composite that is not kept is struck off the lists that it is in, and each of these composites
  is looked at in turn, in the order of their slots.  Which of them are destroyed on the way does
  not depend on the order: it is what lives, is not kept, and hangs on the first one by composites
  of that sort.

    1. FALLS.     `Store.Falls y`: what goes with `y`.
    2. SHEDS.     `Store.Sheds D E`: the composites in `D` are gone and the
                  entries in `E` are struck off.
    3. STRIKING.  Striking one composite off one list after the other, and taking away each time
                  what falls, takes away what falls once it is off all of them.
    4. ENDING.    What a composite leaves behind that has been struck off every list.
-/
import CompositeGraph.Proofs.Remnants

namespace CompositeGraph

namespace Store

variable {s t u : Store} {roots : List Handle}

/-! ## Falls -/

/-- What goes with `y`: what lives and is not kept, if it is `y` or lists something that goes. -/
inductive Falls (s : Store) (roots : List Handle) (y : Handle) : Handle → Prop where
  | first : s.isAlive y = true → ¬s.Kept roots y → Falls s roots y y
  | next {a h : Handle} : Falls s roots y a → a ∈ s.retainers h →
      s.isAlive h = true → ¬s.Kept roots h →
      Falls s roots y h

namespace Falls

variable {y h : Handle}

theorem isAlive (hh : s.Falls roots y h) : s.isAlive h = true := by
  cases hh <;> assumption

theorem not_kept (hh : s.Falls roots y h) : ¬s.Kept roots h := by
  cases hh <;> assumption

/-- Nothing falls with what is kept, or does not live. -/
theorem source (hh : s.Falls roots y h) : s.isAlive y = true ∧ ¬s.Kept roots y := by
  induction hh with
  | first hy hlost => exact ⟨hy, hlost⟩
  | next _ _ _ _ ih => exact ih

theorem mono (halive : ∀ x, s.isAlive x = true → t.isAlive x = true)
    (hlisted : ∀ a b, s.isAlive a = true → a ∈ s.retainers b → a ∈ t.retainers b)
    (hkept : ∀ x, t.Kept roots x → s.Kept roots x) (hh : s.Falls roots y h) :
      t.Falls roots y h := by
  induction hh with
  | first hy hlost => exact .first (halive _ hy) fun hk => hlost (hkept _ hk)
  | next ha hl hb hlost ih =>
    exact .next ih (hlisted _ _ ha.isAlive hl) (halive _ hb) fun hk => hlost (hkept _ hk)

end Falls

/-! ## Sheds -/

/-- Nothing at all. -/
abbrev nobody : Handle → Prop := fun _ => False

/-- The composites in `D` are gone, and the entries in `E` are struck off. -/
structure Sheds (D : Handle → Prop) (E : Edges) (s t : Store) : Prop where
  alive : ∀ h, t.isAlive h = true ↔ s.isAlive h = true ∧ ¬D h
  dying : ∀ h, t.isDying h = s.isDying h
  listed : ∀ a b, a ∈ t.retainers b ↔ a ∈ s.retainers b ∧ ¬D a ∧ ¬D b ∧ ¬E a b

namespace Sheds

variable {D D' : Handle → Prop} {E E' : Edges} {h : Handle}

theorem refl (s : Store) : s.Sheds nobody noEdges s :=
  ⟨fun _ => by simp, fun _ => rfl, fun _ _ => by simp [noEdges]⟩

theorem trans (hs : s.Sheds D E t) (ht : t.Sheds D' E' u) :
    s.Sheds (fun h => D h ∨ D' h) (fun a b => E a b ∨ E' a b) u where
  alive h := by rw [ht.alive, hs.alive, not_or, and_assoc]
  dying h := (ht.dying h).trans (hs.dying h)
  listed a b := by
    rw [ht.listed, hs.listed, not_or, not_or, not_or]
    tauto

theorem congr (hs : s.Sheds D E t) (hD : ∀ h, D h ↔ D' h)
    (hE : ∀ a b, a ∈ s.retainers b → ¬D a → ¬D b → (E a b ↔ E' a b)) : s.Sheds D' E' t where
  alive h := by rw [hs.alive, hD]
  dying := hs.dying
  listed a b := by
    rw [hs.listed]
    constructor
    · rintro ⟨hl, ha, hb, he⟩
      exact ⟨hl, fun h => ha ((hD a).mpr h), fun h => hb ((hD b).mpr h), fun h =>
        he ((hE a b hl ha hb).mpr h)⟩
    · rintro ⟨hl, ha, hb, he⟩
      have ha := fun h => ha ((hD a).mp h)
      have hb := fun h => hb ((hD b).mp h)
      exact ⟨hl, ha, hb, fun h => he ((hE a b hl ha hb).mp h)⟩

/-- Less and less lives. -/
theorem card_living (hs : s.Sheds D E t) : t.living.card ≤ s.living.card :=
  Finset.card_le_card fun h hh => mem_living.mpr ((hs.alive h).mp (mem_living.mp hh)).1

theorem kept (hs : s.Sheds D E t) (hh : t.Kept roots h) : s.Kept roots h :=
  hh.mono (fun a b hab => ((hs.listed a b).mp hab).1) fun _ => id

/-- If nothing that is gone or struck off was kept, the others are kept as before. -/
theorem kept_iff (hs : s.Sheds D E t) (hD : ∀ h, D h → ¬s.Kept roots h)
    (hE : ∀ a b, E a b → ¬s.Kept roots a) : t.Kept roots h ↔ s.Kept roots h := by
  refine ⟨hs.kept, fun hh => ?_⟩
  induction hh with
  | root hm => exact .root hm
  | @retained a b hl ha ih =>
    have hb : s.Kept roots b := .retained hl ha
    exact .retained
      ((hs.listed a b).mpr ⟨hl, fun h => hD a h ha, fun h => hD b h hb, fun h => hE a b h ha⟩) ih

end Sheds

/-! ## Striking -/

/-- The store with an entry struck off every list of some. -/
def struckAll (s : Store) (q : Handle) (lists : List Handle) : Store :=
  lists.foldl (fun s y => s.struck q y) s

section Striking

variable {q y : Handle} {lists : List Handle}

theorem bare?_struckAll (h : Handle) : (s.struckAll q lists).bare? h = s.bare? h := by
  induction lists generalizing s with
  | nil => rfl
  | cons z lists ih => exact (ih (s := s.struck q z)).trans (bare?_mapRetainers z h _)

theorem mem_retainers_struckAll {a b : Handle} :
    a ∈ (s.struckAll q lists).retainers b ↔ a ∈ s.retainers b ∧ ¬(a = q ∧ b ∈ lists) := by
  induction lists generalizing s with
  | nil => simp [struckAll]
  | cons z lists ih =>
    rw [struckAll, List.foldl_cons, ← struckAll, ih, Paired.mem_retainers_strike, List.mem_cons]
    tauto

theorem sheds_struckAll : s.Sheds nobody (fun a b => a = q ∧ b ∈ lists) (s.struckAll q lists) where
  alive h := by rw [isAlive_of_bare? (bare?_struckAll h)]; simp
  dying h := isDying_of_bare? (bare?_struckAll h)
  listed a b := by rw [mem_retainers_struckAll]; simp

theorem sheds_struck : s.Sheds nobody (fun a b => a = q ∧ b = y) (s.struck q y) := by
  have hall : s.Sheds nobody (fun a b => a = q ∧ b ∈ [y]) (s.struck q y) := sheds_struckAll
  exact hall.congr (fun _ => Iff.rfl) fun _ _ _ _ _ => by rw [List.mem_singleton]

/-- An entry may be struck off before the rest is taken away. -/
theorem Sheds.of_struck {D : Handle → Prop} (hs : s.Sheds D (fun a b => a = q ∧ b = y) t) :
    (s.struck q y).Sheds D noEdges t where
  alive h := by rw [hs.alive, isAlive_of_bare? (bare?_mapRetainers y h _)]
  dying h := by rw [hs.dying, isDying_of_bare? (bare?_mapRetainers y h _)]
  listed a b := by
    rw [hs.listed, Paired.mem_retainers_strike]
    tauto

/-- Entries may be struck off before and after. -/
theorem Sheds.struckAll {D : Handle → Prop} (hs : s.Sheds D (fun a b => a = q ∧ b = y) t) :
    (s.struckAll q (y :: lists)).Sheds D noEdges (t.struckAll q lists) where
  alive h := by
    rw [isAlive_of_bare? (bare?_struckAll h), hs.alive, isAlive_of_bare? (bare?_struckAll h)]
  dying h := by
    rw [isDying_of_bare? (bare?_struckAll h), hs.dying, isDying_of_bare? (bare?_struckAll h)]
  listed a b := by
    rw [mem_retainers_struckAll, hs.listed, mem_retainers_struckAll, List.mem_cons]
    tauto

/-- The entries of a composite play no part in what keeps it. -/
theorem Kept.struckAll_self (hq : s.Kept roots q) : (s.struckAll q lists).Kept roots q := by
  have hor : ∀ x, s.Kept roots x → (s.struckAll q lists).Kept roots x ∨
    (s.struckAll q lists).Kept roots q := by
    intro x hx
    induction hx with
    | root hm => exact Or.inl (.root hm)
    | @retained a x hl _ ih =>
      rcases ih with ih | ih
      · by_cases haq : a = q
        · exact Or.inr (haq ▸ ih)
        · exact Or.inl (.retained (mem_retainers_struckAll.mpr ⟨hl, fun h => haq h.1⟩) ih)
      · exact Or.inr ih
  exact (hor q hq).elim id id

/-- What goes when `q` is struck off the lists of some. -/
def FallsAll (s : Store) (roots : List Handle) (q : Handle) (lists : List Handle)
    (h : Handle) : Prop :=
  ∃ y ∈ lists, q ∈ s.retainers y ∧ (s.struckAll q lists).Falls roots y h

theorem FallsAll.not_kept {h : Handle} (hh : s.FallsAll roots q lists h) :
    ¬(s.struckAll q lists).Kept roots h := by
  obtain ⟨_, _, _, hh⟩ := hh
  exact hh.not_kept

theorem FallsAll.isAlive {h : Handle} (hh : s.FallsAll roots q lists h) : s.isAlive h = true := by
  obtain ⟨_, _, _, hh⟩ := hh
  rw [← isAlive_of_bare? (bare?_struckAll h)]
  exact hh.isAlive

/-- What goes is known from who lives, who is listed, and which of the lists hold `q`. -/
theorem FallsAll.congr {h : Handle} {lists' : List Handle} (halive : ∀ x, s.isAlive x = t.isAlive x)
    (hlisted : ∀ a b, a ∈ s.retainers b ↔ a ∈ t.retainers b)
    (hlists : ∀ y, q ∈ s.retainers y → (y ∈ lists ↔ y ∈ lists')) (hh : s.FallsAll roots q lists h) :
    t.FallsAll roots q lists' h := by
  have halive' : ∀ x, (s.struckAll q lists).isAlive x = (t.struckAll q lists').isAlive x := by
    intro x
    rw [isAlive_of_bare? (bare?_struckAll x), isAlive_of_bare? (bare?_struckAll x), halive]
  have hlisted' : ∀ a b, a ∈ (s.struckAll q lists).retainers b ↔
    a ∈ (t.struckAll q lists').retainers b := by
    intro a b
    rw [mem_retainers_struckAll, mem_retainers_struckAll, ← hlisted]
    refine and_congr_right fun hab => not_congr (and_congr_right ?_)
    rintro rfl
    exact hlists b hab
  obtain ⟨y, hy, hqy, hh⟩ := hh
  exact ⟨y, (hlists y hqy).mp hy, (hlisted q y).mp hqy,
    hh.mono (fun x hx => (halive' x).symm.trans hx)
    (fun a b _ => (hlisted' a b).mp) fun x hx =>
      hx.mono (fun a b => (hlisted' a b).mpr) fun _ => id⟩

theorem mem_retainers_struck_of_struckAll {a b : Handle}
    (hab : a ∈ (s.struckAll q (y :: lists)).retainers b) : a ∈ (s.struck q y).retainers b := by
  rw [mem_retainers_struckAll, List.mem_cons] at hab
  exact Paired.mem_retainers_strike.mpr ⟨hab.1, by tauto⟩

theorem Kept.struck_of_struckAll {h : Handle} (hh : (s.struckAll q (y :: lists)).Kept roots h) :
    (s.struck q y).Kept roots h :=
  hh.mono (fun _ _ => mem_retainers_struck_of_struckAll) fun _ => id

theorem isAlive_struckAll_cons (x : Handle) :
    (s.struckAll q (y :: lists)).isAlive x = (s.struck q y).isAlive x := by
  rw [isAlive_of_bare? (bare?_struckAll x), isAlive_of_bare? (bare?_mapRetainers y x _)]

/-- What is kept when `q` has been struck off all the lists is kept when one of them came first. -/
theorem kept_struckAll_iff {h : Handle}
    (ht : s.Sheds ((s.struck q y).Falls roots y) (fun a b => a = q ∧ b = y) t) :
    (t.struckAll q lists).Kept roots h ↔ (s.struckAll q (y :: lists)).Kept roots h :=
  ht.struckAll.kept_iff (fun _ hx hk => hx.not_kept hk.struck_of_struckAll) fun _ _ => False.elim

section Union

variable {h : Handle} (hlost : ∀ d, s.isDying d = true → ¬s.Kept roots d)
  (ht : s.Sheds ((s.struck q y).Falls roots y) (fun a b => a = q ∧ b = y) t)

include hlost ht

/-- What is kept while `q` is in other lists is kept without, or goes later on. -/
theorem kept_or_fallsAll (hh : (s.struck q y).Kept roots h) :
    (s.struckAll q (y :: lists)).Kept roots h ∨ t.FallsAll roots q lists h := by
  have hz : (s.struckAll q (y :: lists)).Sheds _ noEdges (t.struckAll q lists) := ht.struckAll
  have hstays : ∀ {x}, (s.struck q y).Kept roots x → ¬(s.struck q y).Falls roots y x :=
    fun hx hf => hf.not_kept hx
  have halive : ∀ {a x}, a ∈ (s.struck q y).retainers x → (s.struck q y).Kept roots x →
      (t.struckAll q lists).isAlive x = true := by
    intro a x hax hx
    have hthere := contains_of_mem_retainers (Paired.mem_retainers_strike.mp hax).1
    rw [isAlive_of_bare? (bare?_struckAll x), ht.alive]
    exact ⟨(contains_iff_alive_or_dying.mp hthere).resolve_right fun hd =>
      hlost x hd hx.of_struck, hstays hx⟩
  -- By induction on what keeps `h`: the first that is kept no longer goes by an entry of `q`, and
  -- the others go after it.
  induction hh with
  | root hm => exact Or.inl (.root hm)
  | @retained a x hl ha ih =>
    by_cases hx : (s.struckAll q (y :: lists)).Kept roots x
    · exact Or.inl hx
    · have hxk : (s.struck q y).Kept roots x := .retained hl ha
      have hxlost : ¬(t.struckAll q lists).Kept roots x := fun h => hx (hz.kept h)
      have hstill : a ∈ t.retainers x :=
        (ht.of_struck.listed a x).mpr ⟨hl, hstays ha, hstays hxk, id⟩
      refine Or.inr ?_
      by_cases hentry : a = q ∧ x ∈ lists
      · obtain ⟨rfl, hmem⟩ := hentry
        exact ⟨x, hmem, hstill, .first (halive hl hxk) hxlost⟩
      · rcases ih with ih | ⟨w, hw, hqw, ih⟩
        · refine absurd (.retained ?_ ih) hx
          rw [mem_retainers_struckAll, List.mem_cons]
          have hl' := Paired.mem_retainers_strike.mp hl
          exact ⟨hl'.1, by tauto⟩
        · exact ⟨w, hw, hqw,
            .next ih (mem_retainers_struckAll.mpr ⟨hstill, hentry⟩) (halive hl hxk) hxlost⟩

/-- What goes with all the lists goes with the first one or later on. -/
theorem falls_or_fallsAll (hq : ¬(s.struck q y).Falls roots y q)
    (hh : s.FallsAll roots q (y :: lists) h) :
    (s.struck q y).Falls roots y h ∨ t.FallsAll roots q lists h := by
  have hz : (s.struckAll q (y :: lists)).Sheds _ noEdges (t.struckAll q lists) := ht.struckAll
  obtain ⟨z, hmem, hqz, hh⟩ := hh
  induction hh with
  | first hzalive hzlost =>
    by_cases hfalls : (s.struck q y).Falls roots y z
    · exact Or.inl hfalls
    · refine Or.inr ?_
      by_cases hzy : z = y
      · -- `y` was kept by way of another entry of `q`.
        have hky : (s.struck q y).Kept roots z := by
          by_contra hlost'
          rw [isAlive_struckAll_cons] at hzalive
          exact hfalls (hzy ▸ .first (hzy ▸ hzalive) (hzy ▸ hlost'))
        exact (kept_or_fallsAll hlost ht hky).resolve_left hzlost
      · have hlater := (List.mem_cons.mp hmem).resolve_left hzy
        exact ⟨z, hlater, (ht.listed q z).mpr ⟨hqz, hq, hfalls, fun h => hzy h.2⟩,
          .first ((hz.alive z).mpr ⟨hzalive, hfalls⟩) fun hk =>
            hzlost ((kept_struckAll_iff ht).mp hk)⟩
  | @next a x ha hl hxalive hxlost ih =>
    by_cases hfalls : (s.struck q y).Falls roots y x
    · exact Or.inl hfalls
    · refine Or.inr ?_
      rcases ih with ih | ⟨w, hw, hqw, ih⟩
      · -- The retainer of `x` fell with `y` and `x` did not, so another one kept it.
        have hkx : (s.struck q y).Kept roots x := by
          by_contra hlost'
          rw [isAlive_struckAll_cons] at hxalive
          exact hfalls (.next ih (mem_retainers_struck_of_struckAll hl) hxalive hlost')
        exact (kept_or_fallsAll hlost ht hkx).resolve_left hxlost
      · have hnot := ((hz.alive a).mp ih.isAlive).2
        exact ⟨w, hw, hqw, .next ih ((hz.listed a x).mpr ⟨hl, hnot, hfalls, id⟩)
          ((hz.alive x).mpr ⟨hxalive, hfalls⟩) fun hk => hxlost ((kept_struckAll_iff ht).mp hk)⟩

/-- Striking `q` off one list that it is in, and then off the others, comes to the same as striking
    it off all of them. -/
theorem fallsAll_cons_of_mem (hq : ¬(s.struck q y).Falls roots y q) (hlisted : q ∈ s.retainers y) :
    s.FallsAll roots q (y :: lists) h ↔ (s.struck q y).Falls roots y h ∨
      t.FallsAll roots q lists h := by
  refine ⟨falls_or_fallsAll hlost ht hq, ?_⟩
  rintro (hh | ⟨w, hw, hqw, hh⟩)
  · refine ⟨y, List.mem_cons_self, hlisted, ?_⟩
    induction hh with
    | first hy hlost' =>
      exact .first ((isAlive_struckAll_cons y).trans hy) fun hk => hlost' hk.struck_of_struckAll
    | @next a x ha hl hx hlost' ih =>
      refine .next ih ?_ ((isAlive_struckAll_cons x).trans hx) fun hk =>
        hlost' hk.struck_of_struckAll
      rw [mem_retainers_struckAll]
      refine ⟨(Paired.mem_retainers_strike.mp hl).1, ?_⟩
      rintro ⟨rfl, _⟩
      exact hq ha
  · have hz : (s.struckAll q (y :: lists)).Sheds _ noEdges (t.struckAll q lists) := ht.struckAll
    refine ⟨w, List.mem_cons_of_mem _ hw, ((ht.listed q w).mp hqw).1, ?_⟩
    exact hh.mono (fun x hx => ((hz.alive x).mp hx).1) (fun a b _ hab => ((hz.listed a b).mp hab).1)
      fun x hx => (kept_struckAll_iff ht).mpr hx

end Union

theorem fallsAll_singleton {h : Handle} (hlisted : q ∈ s.retainers y) :
    s.FallsAll roots q [y] h ↔ (s.struck q y).Falls roots y h := by
  constructor
  · rintro ⟨z, hz, _, hh⟩
    exact List.mem_singleton.mp hz ▸ hh
  · exact fun hh => ⟨y, List.mem_singleton_self y, hlisted, hh⟩

theorem not_fallsAll_singleton {h : Handle} (hlisted : q ∉ s.retainers y) :
    ¬s.FallsAll roots q [y] h := by
  rintro ⟨z, hz, hqz, _⟩
  exact hlisted (List.mem_singleton.mp hz ▸ hqz)

/-- Striking `q` off one list and then off the others comes to the same as
    striking it off all of them. -/
theorem fallsAll_cons {h : Handle} (hlost : ∀ d, s.isDying d = true → ¬s.Kept roots d)
    (hq : ¬s.FallsAll roots q [y] q)
    (ht : s.Sheds (s.FallsAll roots q [y]) (fun a b => a = q ∧ b = y) t) :
    s.FallsAll roots q (y :: lists) h ↔ s.FallsAll roots q [y] h ∨ t.FallsAll roots q lists h := by
  by_cases hlisted : q ∈ s.retainers y
  · rw [fallsAll_singleton hlisted] at hq ⊢
    exact fallsAll_cons_of_mem hlost
      (ht.congr (fun _ => fallsAll_singleton hlisted) fun _ _ _ _ _ => Iff.rfl)
      hq hlisted
  · -- Nothing is gone, and the list that is left out does not hold `q`.
    have hnone : ∀ x, ¬s.FallsAll roots q [y] x := fun x => not_fallsAll_singleton hlisted
    have halive : ∀ x, s.isAlive x = t.isAlive x := fun x =>
      Bool.eq_iff_iff.mpr ((ht.alive x).trans (and_iff_left (hnone x))).symm
    have hlists : ∀ a b, a ∈ s.retainers b ↔ a ∈ t.retainers b := by
      intro a b
      rw [ht.listed]
      refine ⟨fun hab => ⟨hab, hnone a, hnone b, ?_⟩, fun h => h.1⟩
      rintro ⟨rfl, rfl⟩
      exact hlisted hab
    have hothers : ∀ z, q ∈ s.retainers z → (z ∈ y :: lists ↔ z ∈ lists) := by
      intro z hqz
      refine ⟨fun hz => (List.mem_cons.mp hz).resolve_left ?_, List.mem_cons_of_mem _⟩
      rintro rfl
      exact hlisted hqz
    constructor
    · exact fun hh => Or.inr (hh.congr halive hlists hothers)
    · rintro (hh | hh)
      · exact absurd hh (hnone h)
      · exact hh.congr (fun x => (halive x).symm) (fun a b => (hlists a b).symm) fun z hz =>
          (hothers z ((hlists q z).mpr hz)).symm

end Striking

/-! ## Ending -/

section Ending

variable {y h : Handle} {lists : List Handle}

theorem kept_dead : (s.dead y).Kept roots h ↔ s.Kept roots h :=
  ⟨fun hh => hh.mono (fun a b hab => by rwa [retainers_dead] at hab) fun _ => id,
    fun hh => hh.mono (fun a b hab => by rwa [retainers_dead]) fun _ => id⟩

variable (hy : s.isAlive y = true) (hlost : ¬s.Kept roots y)
  (hlists : ∀ z, z ∈ lists ↔ z ≠ y ∧ y ∈ s.retainers z)

include hy hlost hlists

/-- What falls with `y` is `y`, and what falls when `y` is struck off every list. -/
theorem falls_iff : s.Falls roots y h ↔ h = y ∨ (s.dead y).FallsAll roots y lists h := by
  have halive : ∀ x, ((s.dead y).struckAll y lists).isAlive x = true ↔
    s.isAlive x = true ∧ x ≠ y := by
    intro x
    rw [isAlive_of_bare? (bare?_struckAll x), isAlive_dead]
  have hlisted : ∀ a b, a ∈ ((s.dead y).struckAll y lists).retainers b ↔ a ∈ s.retainers b ∧
    ¬(a = y ∧ b ∈ lists) := by
    intro a b
    rw [mem_retainers_struckAll, retainers_dead]
  -- `y` is not kept, so none of its entries keeps anything.
  have hkept : ∀ {x}, ((s.dead y).struckAll y lists).Kept roots x ↔ s.Kept roots x := by
    intro x
    refine (sheds_struckAll.kept_iff (fun _ => False.elim) ?_).trans kept_dead
    rintro a b ⟨rfl, _⟩ hk
    exact hlost (kept_dead.mp hk)
  constructor
  · intro hh
    induction hh with
    | first => exact Or.inl rfl
    | @next a x ha hl hx hxlost ih =>
      by_cases hxy : x = y
      · exact Or.inl hxy
      · refine Or.inr ?_
        have hxalive := (halive x).mpr ⟨hx, hxy⟩
        have hxlost : ¬((s.dead y).struckAll y lists).Kept roots x := fun hk => hxlost (hkept.mp hk)
        rcases ih with rfl | ⟨z, hz, hyz, ih⟩
        · exact ⟨x, (hlists x).mpr ⟨hxy, hl⟩, by rwa [retainers_dead], .first hxalive hxlost⟩
        · have hay := ((halive a).mp ih.isAlive).2
          exact ⟨z, hz, hyz, .next ih ((hlisted a x).mpr ⟨hl, fun h => hay h.1⟩) hxalive hxlost⟩
  · rintro (rfl | ⟨z, hz, hyz, hh⟩)
    · exact .first hy hlost
    · rw [retainers_dead] at hyz
      induction hh with
      | first hza hzlost =>
        exact .next (.first hy hlost) hyz ((halive z).mp hza).1 fun hk => hzlost (hkept.mpr hk)
      | @next a x _ hl hx hxlost ih =>
        exact .next ih ((hlisted a x).mp hl).1 ((halive x).mp hx).1 fun hk => hxlost (hkept.mpr hk)

/-- Once it has been struck off every list, and what fell with that is gone, it is freed. -/
theorem Sheds.free
    (ht : (s.dead y).Sheds ((s.dead y).FallsAll roots y lists) (fun a b => a = y ∧ b ∈ lists) t) :
    s.Sheds (s.Falls roots y) noEdges (t.free y) where
  alive h := by
    rw [falls_iff hy hlost hlists]
    by_cases hhy : h = y
    · rw [hhy, Store.isAlive, get?_free, if_pos rfl]
      simp
    · rw [Store.isAlive, get?_free_ne hhy, ← Store.isAlive, ht.alive, isAlive_dead]
      tauto
  dying h := by
    by_cases hhy : h = y
    · rw [hhy, Store.isDying, get?_free, if_pos rfl, isDying_eq_false_of_isAlive hy]
      rfl
    · rw [Store.isDying, get?_free_ne hhy, ← Store.isDying, ht.dying, isDying_modify_ne hhy]
  listed a b := by
    rw [falls_iff hy hlost hlists, falls_iff hy hlost hlists]
    by_cases hby : b = y
    · rw [hby, Store.retainers, get?_free, if_pos rfl]
      simp
    · rw [Store.retainers, get?_free_ne hby, ← Store.retainers, ht.listed, retainers_dead, hlists]
      simp only [noEdges, not_or, hby, ne_eq, not_false_eq_true, true_and, and_true]
      constructor
      · rintro ⟨hl, ha, hb, he⟩
        exact ⟨hl, ⟨fun h => he ⟨h, h ▸ hl⟩, ha⟩, hb⟩
      · rintro ⟨hl, ⟨hay, ha⟩, hb⟩
        exact ⟨hl, ha, hb, fun h => hay h.1⟩

end Ending

end Store

end CompositeGraph
