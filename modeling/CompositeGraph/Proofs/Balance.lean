/-
  BALANCE: the lists of retainers against the links.

  Links are stored twice, forwards in the composite that is linked to another and backwards in the
  list of retainers of that other one.  A store is balanced if the two agree.  While a link is being
  settled they do not: a link that is `missing` from a list still has to be listed there, and an
  `extra` entry of a list stands for a link that is gone.  Balance is therefore stated up to both
  sorts of edges.

    1. BARE.     `Store.bare?`: a composite but for its retainers, which decides all links.
    2. BALANCE.  `Store.Paired missing extra` and `Store.Balanced missing extra`.
    3. CHANGES.  What listing, striking off, relinking, dying, freeing and adding do to balance.
    4. FOLLOWS.  How a store may change while something runs: nothing that was freed comes back, and
                 what is dying gets no new entry.
-/
import CompositeGraph.Proofs.Discipline

namespace CompositeGraph

/-! ## Bare -/

namespace Composite

/-- The composite with an empty list of retainers. -/
def bare (c : Composite) : Composite := c.mapRetainers fun _ => []

variable (c : Composite)

@[simp] theorem bare_mapRetainers (f : List Handle → List Handle) :
    (c.mapRetainers f).bare = c.bare := rfl

@[simp] theorem isAlive_bare : c.bare.isAlive = c.isAlive := rfl

@[simp] theorem references_bare : c.bare.references = c.references := rfl

@[simp] theorem named_bare : c.bare.named = c.named := rfl

@[simp] theorem type_bare : c.bare.type = c.type := rfl

@[simp] theorem get_bare (slot : Slot) : c.bare.links.get slot = c.links.get slot := by
  cases slot <;> rfl

end Composite

namespace Store

variable {s t : Store}

/-- The composite a handle names, but for its retainers. -/
def bare? (s : Store) (h : Handle) : Option Composite := (s.get? h).map Composite.bare

variable {h : Handle}

theorem bare?_of_get? {c : Composite} (hc : s.get? h = some c) : s.bare? h = some c.bare := by
  rw [bare?, hc]; rfl

/-- Everything but the retainers is decided by the bare composite. -/
theorem isAlive_of_bare? (hb : t.bare? h = s.bare? h) : t.isAlive h = s.isAlive h := by
  have hview : ∀ u : Store, u.isAlive h = (u.bare? h).any Composite.isAlive := by
    intro u
    unfold isAlive bare?
    cases u.get? h <;> rfl
  rw [hview, hview, hb]

theorem isDying_of_bare? (hb : t.bare? h = s.bare? h) : t.isDying h = s.isDying h := by
  have hview : ∀ u : Store, u.isDying h = (u.bare? h).any fun c => !c.isAlive := by
    intro u
    unfold isDying bare?
    cases u.get? h <;> rfl
  rw [hview, hview, hb]

theorem references_of_bare? (hb : t.bare? h = s.bare? h) : t.references h = s.references h := by
  have hview : ∀ u : Store, u.references h = ((u.bare? h).map Composite.references).getD [] := by
    intro u
    unfold references bare?
    cases u.get? h <;> rfl
  rw [hview, hview, hb]

theorem contains_of_bare? (hb : t.bare? h = s.bare? h) : t.contains h = s.contains h := by
  have hview : ∀ u : Store, u.contains h = (u.bare? h).isSome := by
    intro u
    unfold contains bare?
    cases u.get? h <;> rfl
  rw [hview, hview, hb]

theorem bare?_modify_ne {h x : Handle} (f : Composite → Composite) (hx : x ≠ h) :
    (s.modify h f).bare? x = s.bare? x := by rw [bare?, get?_modify_ne f hx]; rfl

/-- Only the retainers of a composite are changed. -/
theorem bare?_mapRetainers (h x : Handle) (f : List Handle → List Handle) :
    (s.modify h fun c => c.mapRetainers f).bare? x = s.bare? x := by
  rw [bare?, get?_modify]
  split
  · rename_i hx
    rw [hx, bare?, Option.map_map]
    rfl
  · rfl

theorem retainers_mapRetainers (hh : s.contains h = true) (f : List Handle → List Handle) :
    (s.modify h fun c => c.mapRetainers f).retainers h = f (s.retainers h) := by
  obtain ⟨c, hc⟩ := contains_iff.mp hh
  rw [retainers_of_get? (get?_modify_self _ hc), retainers_of_get? hc]
  rfl

/-! ## Balance -/

/-- `a` lists `b` as linked: pairs of a composite and one that it is linked to. -/
abbrev Edges := Handle → Handle → Prop

/-- The lists of retainers say what the links say, but for some edges. -/
structure Paired (missing extra : Edges) (s : Store) : Prop where
  /-- What a living composite is linked to lists it. -/
  listed : ∀ a b, s.isAlive a = true → b ∈ s.references a → s.contains b = true → a ≠ b →
    a ∈ s.retainers b ∨ missing a b
  /-- Whoever is listed is another composite that is there, and is linked if it is alive. -/
  linked : ∀ a b, a ∈ s.retainers b →
    a ≠ b ∧ s.contains a = true ∧ (s.isAlive a = true → b ∈ s.references a ∨ extra a b)
  nodup : ∀ b, (s.retainers b).Nodup

/-- Besides, no handle that stands in the store is one that the store has yet to hand out. -/
structure Balanced (missing extra : Edges) (s : Store) : Prop extends Paired missing extra s where
  bounded : ∀ a c, s.bare? a = some c → ∀ h ∈ c.named, h.index < s.size

namespace Paired

variable {missing missing' extra extra' : Edges}

/-- Edges whose source is not alive, or that lead to the source itself, do not matter. -/
theorem strengthen (hb : s.Paired missing extra)
    (hm : ∀ a b, missing a b → s.isAlive a = true → a ≠ b → missing' a b ∨ b ∉ s.references a)
    (he : ∀ a b, extra a b → s.isAlive a = true → a ∈ s.retainers b → a ≠ b → extra' a b) :
    s.Paired missing' extra' where
  listed a b ha hr hc hne := by
    rcases hb.listed a b ha hr hc hne with h | h
    · exact Or.inl h
    · exact Or.inr ((hm a b h ha hne).resolve_right fun hn => hn hr)
  linked a b h := by
    obtain ⟨hne, hc, hl⟩ := hb.linked a b h
    refine ⟨hne, hc, fun ha => ?_⟩
    rcases hl ha with hl | hl
    · exact Or.inl hl
    · exact Or.inr (he a b hl ha h hne)
  nodup := hb.nodup

/-! ### Listing and striking off -/

section Listing

variable {a b : Handle}

/-- The list of retainers with one more, unless it is there. -/
def adding (a : Handle) (retainers : List Handle) : List Handle :=
  if retainers.contains a then retainers else retainers ++ [a]

theorem mem_adding {x : Handle} {retainers : List Handle} :
    x ∈ adding a retainers ↔ x ∈ retainers ∨ x = a := by
  unfold adding
  split
  · rename_i h
    have h : a ∈ retainers := List.contains_iff_mem.mp h
    constructor
    · exact Or.inl
    · rintro (hx | rfl)
      · exact hx
      · exact h
  · simp

theorem nodup_adding {retainers : List Handle} (h : retainers.Nodup) :
    (adding a retainers).Nodup := by
  unfold adding
  split
  · exact h
  · rename_i hn
    have hn : a ∉ retainers := fun hm => hn (List.contains_iff_mem.mpr hm)
    refine List.nodup_append.mpr ⟨h, by simp, ?_⟩
    rintro x hx y hy rfl
    exact hn (List.mem_singleton.mp hy ▸ hx)

/-- After one list of retainers is changed, the others are as they were. -/
theorem retainers_mapRetainers_ne {x : Handle} (f : List Handle → List Handle) (hx : x ≠ b) :
    (s.modify b fun c => c.mapRetainers f).retainers x = s.retainers x := retainers_modify_ne hx

/-- A link that is there is listed: it is missing no longer. -/
theorem list (hb : s.Paired missing extra) (hne : a ≠ b) (ha : s.isAlive a = true)
    (hr : b ∈ s.references a) (hm : ∀ x y, missing x y → missing' x y ∨ (x = a ∧ y = b))
    (he : ∀ x y, extra x y → extra' x y ∨ (x = a ∧ y = b)) :
    (s.modify b fun c => c.mapRetainers (adding a)).Paired missing' extra' := by
  have hbare := fun x => bare?_mapRetainers (s := s) b x (adding a)
  have hsub : ∀ x y, x ∈ s.retainers y →
    x ∈ (s.modify b fun c => c.mapRetainers (adding a)).retainers y := by
    intro x y hx
    by_cases hy : y = b
    · rw [hy] at hx ⊢
      rw [retainers_mapRetainers (contains_of_mem_retainers hx)]
      exact mem_adding.mpr (Or.inl hx)
    · rw [retainers_mapRetainers_ne _ hy]
      exact hx
  have hsup : ∀ x y, x ∈ (s.modify b fun c => c.mapRetainers (adding a)).retainers y →
      x ∈ s.retainers y ∨ (x = a ∧ y = b) := by
    intro x y hx
    by_cases hy : y = b
    · rw [hy] at hx ⊢
      have hc := contains_of_mem_retainers hx
      rw [contains_modify] at hc
      rw [retainers_mapRetainers hc] at hx
      exact (mem_adding.mp hx).imp_right fun h => ⟨h, rfl⟩
    · rw [retainers_mapRetainers_ne _ hy] at hx
      exact Or.inl hx
  refine ⟨?_, ?_, ?_⟩
  · intro x y hx hxy hy hxne
    rw [isAlive_of_bare? (hbare x)] at hx
    rw [references_of_bare? (hbare x)] at hxy
    rw [contains_of_bare? (hbare y)] at hy
    have hnew : x = a ∧ y = b → x ∈
      (s.modify b fun c => c.mapRetainers (adding a)).retainers y := by
      rintro ⟨rfl, rfl⟩
      rw [retainers_mapRetainers hy]
      exact mem_adding.mpr (Or.inr rfl)
    rcases hb.listed x y hx hxy hy hxne with h | h
    · exact Or.inl (hsub x y h)
    · exact (hm x y h).symm.imp_left hnew
  · intro x y hx
    rw [contains_of_bare? (hbare x), isAlive_of_bare? (hbare x), references_of_bare? (hbare x)]
    rcases hsup x y hx with hx | ⟨rfl, rfl⟩
    · obtain ⟨hxne, hc, hl⟩ := hb.linked x y hx
      refine ⟨hxne, hc, fun hxa => ?_⟩
      rcases hl hxa with hl | hl
      · exact Or.inl hl
      · rcases he x y hl with hl | ⟨rfl, rfl⟩
        · exact Or.inr hl
        · exact Or.inl hr
    · exact ⟨hne, contains_of_isAlive ha, fun _ => Or.inl hr⟩
  · intro y
    by_cases hy : y = b
    · rw [hy]
      by_cases hc : s.contains b = true
      · rw [retainers_mapRetainers hc]
        exact nodup_adding (hb.nodup b)
      · rw [retainers_eq_nil (by rw [contains_modify]; exact hc)]
        exact List.nodup_nil
    · rw [retainers_mapRetainers_ne _ hy]
      exact hb.nodup y

theorem mem_retainers_strike {x y : Handle} :
    x ∈ (s.modify b fun c => c.mapRetainers fun l => l.filter (· != a)).retainers y ↔
      x ∈ s.retainers y ∧ ¬(x = a ∧ y = b) := by
  by_cases hy : y = b
  · rw [hy]
    by_cases hc : s.contains b = true
    · rw [retainers_mapRetainers hc, List.mem_filter]
      simp
    · rw [retainers_eq_nil (by rw [contains_modify]; exact hc), retainers_eq_nil hc]
      simp
  · rw [retainers_mapRetainers_ne _ hy]
    simp [hy]

/-- Where there is no link any more, the entry is struck off: it is extra no longer. -/
theorem strike (hb : s.Paired missing extra) (hgone : ¬(s.isAlive a = true ∧ b ∈ s.references a))
    (hm : ∀ x y, missing x y → missing' x y ∨ (x = a ∧ y = b))
    (he : ∀ x y, extra x y → extra' x y ∨ (x = a ∧ y = b)) :
    (s.modify b fun c => c.mapRetainers fun l => l.filter (· != a)).Paired missing' extra' := by
  have hbare := fun x => bare?_mapRetainers (s := s) b x fun l => l.filter (· != a)
  refine ⟨?_, ?_, ?_⟩
  · intro x y hx hxy hy hxne
    rw [isAlive_of_bare? (hbare x)] at hx
    rw [references_of_bare? (hbare x)] at hxy
    rw [contains_of_bare? (hbare y)] at hy
    have hother : ¬(x = a ∧ y = b) := by
      rintro ⟨rfl, rfl⟩
      exact hgone ⟨hx, hxy⟩
    rcases hb.listed x y hx hxy hy hxne with h | h
    · exact Or.inl (mem_retainers_strike.mpr ⟨h, hother⟩)
    · exact Or.inr ((hm x y h).resolve_right hother)
  · intro x y hx
    obtain ⟨hx, hother⟩ := mem_retainers_strike.mp hx
    rw [contains_of_bare? (hbare x), isAlive_of_bare? (hbare x), references_of_bare? (hbare x)]
    obtain ⟨hxne, hc, hl⟩ := hb.linked x y hx
    refine ⟨hxne, hc, fun hxa => ?_⟩
    rcases hl hxa with hl | hl
    · exact Or.inl hl
    · exact Or.inr ((he x y hl).resolve_right hother)
  · intro y
    by_cases hy : y = b
    · rw [hy]
      by_cases hc : s.contains b = true
      · rw [retainers_mapRetainers hc]
        exact (hb.nodup b).filter _
      · rw [retainers_eq_nil (by rw [contains_modify]; exact hc)]
        exact List.nodup_nil
    · rw [retainers_mapRetainers_ne _ hy]
      exact hb.nodup y

end Listing

/-! ### Other changes -/

/-- Links of a composite are changed: new ones are missing from the lists, and entries of old ones
    are extra. -/
theorem relink {a : Handle} {c : Composite} {f : Composite → Composite}
    (hb : s.Paired missing extra) (hc : s.get? a = some c) (hlife : (f c).isAlive = c.isAlive)
    (hretainers : (f c).links.retainers = c.links.retainers)
    (hm : ∀ x y, missing x y → missing' x y)
    (hnew : ∀ y ∈ (f c).references, y ∈ c.references ∨ missing' a y)
    (he : ∀ x y, extra x y → extra' x y)
    (hold : ∀ y ∈ c.references, y ∈ (f c).references ∨ extra' a y) :
    (s.modify a f).Paired missing' extra' := by
  have hself := get?_modify_self f hc
  have hretained : ∀ y, (s.modify a f).retainers y = s.retainers y := by
    intro y
    by_cases hy : y = a
    · rw [hy, retainers_of_get? hself, retainers_of_get? hc, hretainers]
    · exact retainers_modify_ne hy
  have halive : ∀ x, (s.modify a f).isAlive x = s.isAlive x := by
    intro x
    by_cases hx : x = a
    · rw [hx, isAlive, isAlive, hself, hc]
      exact hlife
    · exact isAlive_modify_ne hx
  have hlinks : (s.modify a f).references a = (f c).references := references_of_get? hself
  have hlinks' : s.references a = c.references := references_of_get? hc
  refine ⟨?_, ?_, ?_⟩
  · intro x y hx hxy hy hxne
    rw [halive] at hx
    rw [contains_modify] at hy
    rw [hretained]
    by_cases hxa : x = a
    · subst hxa
      rw [hlinks] at hxy
      rcases hnew y hxy with hxy | hxy
      · exact (hb.listed x y hx (by rw [hlinks']; exact hxy) hy hxne).imp_right (hm x y)
      · exact Or.inr hxy
    · rw [references_modify_ne hxa] at hxy
      exact (hb.listed x y hx hxy hy hxne).imp_right (hm x y)
  · intro x y hx
    rw [hretained] at hx
    rw [contains_modify, halive]
    obtain ⟨hxne, hxc, hl⟩ := hb.linked x y hx
    refine ⟨hxne, hxc, fun hxa => ?_⟩
    rcases hl hxa with hl | hl
    · by_cases hxa : x = a
      · subst hxa
        rw [hlinks]
        rw [hlinks'] at hl
        exact hold y hl
      · rw [references_modify_ne hxa]
        exact Or.inl hl
    · exact Or.inr (he x y hl)
  · intro y
    rw [hretained]
    exact hb.nodup y

/-- A composite whose life ends needs no balance for its links. -/
theorem die (hb : s.Paired missing extra) (h : Handle) :
    (s.dead h).Paired missing extra := by
  refine ⟨?_, ?_, ?_⟩
  · intro x y hx hxy hy hxne
    rw [references_dead] at hxy
    rw [contains_modify] at hy
    rw [retainers_dead]
    exact hb.listed x y (isAlive_dead.mp hx).1 hxy hy hxne
  · intro x y hx
    rw [retainers_dead] at hx
    rw [contains_modify, references_dead]
    obtain ⟨hxne, hxc, hl⟩ := hb.linked x y hx
    exact ⟨hxne, hxc, fun hxa => hl (isAlive_dead.mp hxa).1⟩
  · intro y
    rw [retainers_dead]
    exact hb.nodup y

/-- A composite that retains nothing any more is freed. -/
theorem free (hb : s.Paired missing extra) (hgone : ∀ b, h ∉ s.retainers b) :
    (s.free h).Paired missing extra := by
  have hget : ∀ x, x ≠ h → (s.free h).get? x = s.get? x := fun x hx => get?_free_ne hx
  have hthere : ∀ x, (s.free h).contains x = true → x ≠ h ∧ s.contains x = true := by
    intro x hx
    have hxh : x ≠ h := by
      rintro rfl
      rw [contains, get?_free, if_pos rfl] at hx
      exact absurd hx (by simp)
    rw [contains, hget x hxh] at hx
    exact ⟨hxh, hx⟩
  refine ⟨?_, ?_, ?_⟩
  · intro x y hx hxy hy hxne
    obtain ⟨hxh, _⟩ := hthere x (contains_of_isAlive hx)
    obtain ⟨hyh, hyc⟩ := hthere y hy
    rw [isAlive, hget x hxh] at hx
    rw [references, hget x hxh] at hxy
    rw [retainers, hget y hyh]
    exact hb.listed x y hx hxy hyc hxne
  · intro x y hx
    obtain ⟨hyh, _⟩ := hthere y (contains_of_mem_retainers hx)
    rw [retainers, hget y hyh] at hx
    have hx : x ∈ s.retainers y := hx
    have hxh : x ≠ h := by
      rintro rfl
      exact hgone y hx
    rw [contains, isAlive, references, hget x hxh]
    exact hb.linked x y hx
  · intro y
    by_cases hyh : y = h
    · rw [hyh, retainers_eq_nil (fun hc => (hthere h hc).1 rfl)]
      exact List.nodup_nil
    · rw [retainers, hget y hyh]
      exact hb.nodup y

end Paired

namespace Balanced

variable {missing missing' extra extra' : Edges} (hb : s.Balanced missing extra)

include hb

theorem mono (hm : ∀ a b, missing a b → missing' a b)
    (he : ∀ a b, extra a b → extra' a b) : s.Balanced missing' extra' where
  toPaired := hb.toPaired.strengthen (fun a b h _ _ => Or.inl (hm a b h)) fun a b h _ _ _ =>
    he a b h
  bounded := hb.bounded

theorem strengthen
    (hm : ∀ a b, missing a b → s.isAlive a = true → a ≠ b → missing' a b ∨ b ∉ s.references a)
    (he : ∀ a b, extra a b → s.isAlive a = true → a ∈ s.retainers b → a ≠ b → extra' a b) :
    s.Balanced missing' extra' := ⟨hb.toPaired.strengthen hm he, hb.bounded⟩

theorem bounded_mapRetainers (f : List Handle → List Handle) :
    ∀ x c, (s.modify b fun c => c.mapRetainers f).bare? x = some c → ∀ h ∈ c.named,
      h.index < (s.modify b fun c => c.mapRetainers f).size := by
  intro x c hc h hh
  rw [bare?_mapRetainers] at hc
  rw [size_modify]
  exact hb.bounded x c hc h hh

theorem list {a b : Handle} (hne : a ≠ b) (ha : s.isAlive a = true)
    (hr : b ∈ s.references a) (hm : ∀ x y, missing x y → missing' x y ∨ (x = a ∧ y = b))
    (he : ∀ x y, extra x y → extra' x y ∨ (x = a ∧ y = b)) :
    (s.modify b fun c => c.mapRetainers (Paired.adding a)).Balanced missing' extra' :=
  ⟨hb.toPaired.list hne ha hr hm he, hb.bounded_mapRetainers _⟩

theorem strike {a b : Handle} (hgone : ¬(s.isAlive a = true ∧ b ∈ s.references a))
    (hm : ∀ x y, missing x y → missing' x y ∨ (x = a ∧ y = b))
    (he : ∀ x y, extra x y → extra' x y ∨ (x = a ∧ y = b)) :
    (s.modify b fun c => c.mapRetainers fun l => l.filter (· != a)).Balanced missing' extra' :=
  ⟨hb.toPaired.strike hgone hm he, hb.bounded_mapRetainers _⟩

theorem relink {a : Handle} {c : Composite} {f : Composite → Composite} (hc : s.get? a = some c)
    (hlife : (f c).isAlive = c.isAlive) (hretainers : (f c).links.retainers = c.links.retainers)
    (hnamed : ∀ h ∈ (f c).named, h.index < s.size) (hm : ∀ x y, missing x y → missing' x y)
    (hnew : ∀ y ∈ (f c).references, y ∈ c.references ∨ missing' a y)
    (he : ∀ x y, extra x y → extra' x y)
    (hold : ∀ y ∈ c.references, y ∈ (f c).references ∨ extra' a y) :
    (s.modify a f).Balanced missing' extra' where
  toPaired := hb.toPaired.relink hc hlife hretainers hm hnew he hold
  bounded x d hd h hh := by
    rw [size_modify]
    by_cases hx : x = a
    · rw [hx, bare?_of_get? (get?_modify_self f hc)] at hd
      cases hd
      exact hnamed h hh
    · rw [bare?_modify_ne f hx] at hd
      exact hb.bounded x d hd h hh

theorem die (h : Handle) :
    (s.dead h).Balanced missing extra where
  toPaired := hb.toPaired.die h
  bounded x d hd k hk := by
    rw [size_modify]
    by_cases hx : x = h
    · subst hx
      obtain ⟨e, he, rfl⟩ := Option.map_eq_some_iff.mp hd
      rw [get?_modify, if_pos rfl] at he
      obtain ⟨c, hc, rfl⟩ := Option.map_eq_some_iff.mp he
      exact hb.bounded x _ (bare?_of_get? hc) k hk
    · rw [bare?_modify_ne _ hx] at hd
      exact hb.bounded x d hd k hk

theorem free (hgone : ∀ b, h ∉ s.retainers b) :
    (s.free h).Balanced missing extra where
  toPaired := hb.toPaired.free hgone
  bounded x d hd k hk := by
    have hxh : x ≠ h := by
      rintro rfl
      rw [bare?, get?_free, if_pos rfl] at hd
      cases hd
    rw [bare?, get?_free_ne hxh] at hd
    rw [size_free]
    exact hb.bounded x d hd k hk

/-- A new composite: nothing lists it yet, and nothing can be linked to it. -/
theorem add {c : Composite} (hretainers : c.links.retainers = [])
    (hnamed : ∀ h ∈ c.named, h.index < s.size) (hm : ∀ x y, missing x y → missing' x y)
    (hnew : ∀ y ∈ c.references, missing' s.next y) : (s.add c).1.Balanced missing' extra := by
  have hself := get?_add_self (s := s) c
  have hget : ∀ x, x ≠ s.next → (s.add c).1.get? x = s.get? x := fun x hx => get?_add_ne c hx
  have hretained : ∀ y, (s.add c).1.retainers y = s.retainers y := by
    intro y
    by_cases hy : y = s.next
    · rw [hy, retainers_of_get? hself, hretainers, retainers, get?_next]
    · rw [retainers, hget y hy]; rfl
  have hfresh : ∀ x y, x ∈ s.retainers y → x ≠ s.next := by
    rintro x y hx rfl
    have hc := index_lt_size_of_contains (hb.linked _ y hx).2.1
    exact absurd hc (by simp [next])
  refine ⟨⟨?_, ?_, ?_⟩, ?_⟩
  · intro x y hx hxy hy hxne
    by_cases hxn : x = s.next
    · subst hxn
      rw [references_of_get? hself] at hxy
      exact Or.inr (hnew y hxy)
    · rw [isAlive, hget x hxn] at hx
      rw [references, hget x hxn] at hxy
      have hxy : y ∈ s.references x := hxy
      have hyn : y ≠ s.next := by
        rintro rfl
        obtain ⟨d, hd⟩ := contains_iff.mp (contains_of_mem_references hxy)
        rw [references_of_get? hd] at hxy
        have hlt := hb.bounded x _ (bare?_of_get? hd) s.next (List.mem_append_left _ hxy)
        exact absurd hlt (by simp [next])
      rw [contains, hget y hyn] at hy
      rw [hretained]
      exact (hb.listed x y hx hxy hy hxne).imp_right (hm x y)
  · intro x y hx
    rw [hretained] at hx
    rw [contains, isAlive, references, hget x (hfresh x y hx)]
    exact hb.linked x y hx
  · intro y
    rw [hretained]
    exact hb.nodup y
  · intro x d hd k hk
    rw [size_add]
    by_cases hxn : x = s.next
    · rw [hxn, bare?_of_get? hself] at hd
      cases hd
      exact Nat.lt_succ_of_lt (hnamed k hk)
    · rw [bare?, hget x hxn] at hd
      exact Nat.lt_succ_of_lt (hb.bounded x d hd k hk)

end Balanced

/-! ## Follows -/

/-- How a store may change while something runs to its end: slots are only added, whatever is dying
    goes on dying and nothing else does, and what is dying gets into no list that it was not in. -/
structure Follows (s t : Store) : Prop where
  size : s.size ≤ t.size
  dying : ∀ h, t.isDying h = s.isDying h
  retained : ∀ d b, s.isDying d = true → d ∈ t.retainers b → d ∈ s.retainers b

namespace Follows

theorem refl (s : Store) : s.Follows s := ⟨Nat.le_refl _, fun _ => rfl, fun _ _ _ h => h⟩

theorem trans {u : Store} (h : s.Follows t) (h' : t.Follows u) : s.Follows u where
  size := Nat.le_trans h.size h'.size
  dying d := (h'.dying d).trans (h.dying d)
  retained d b hd hmem := h.retained d b hd (h'.retained d b ((h.dying d).trans hd) hmem)

/-- A composite is changed, but neither its life nor its retainers. -/
theorem modify {a : Handle} {f : Composite → Composite} (hlife : ∀ c, (f c).isAlive = c.isAlive)
    (hretainers : ∀ c, (f c).links.retainers = c.links.retainers) : s.Follows (s.modify a f) where
  size := Nat.le_of_eq (size_modify _ _).symm
  dying := isDying_modify hlife
  retained d b _ hmem := by rwa [retainers_modify hretainers] at hmem

theorem strike (a b : Handle) :
    s.Follows (s.modify b fun c => c.mapRetainers fun l => l.filter (· != a)) where
  size := Nat.le_of_eq (size_modify _ _).symm
  dying h := isDying_of_bare? (bare?_mapRetainers b h _)
  retained _ _ _ hmem := (Paired.mem_retainers_strike.mp hmem).1

/-- A composite that began to die, and in the end was freed. -/
theorem free (ha : s.isAlive h = true) (hf : (s.dead h).Follows t) : s.Follows (t.free h) where
  size := by
    rw [size_free, ← size_modify (s := s) h fun c => { c with life := .destroyed }]
    exact hf.size
  dying k := by
    by_cases hk : k = h
    · rw [hk, isDying_eq_false_of_isAlive ha, isDying, get?_free, if_pos rfl]
      rfl
    · rw [isDying, get?_free_ne hk, ← isDying_modify_ne (s := s) hk]
      exact hf.dying k
  retained d b hd hmem := by
    have hdh : d ≠ h := by
      rintro rfl
      rw [isDying_eq_false_of_isAlive ha] at hd
      cases hd
    have hbh : b ≠ h := by
      rintro rfl
      rw [retainers, get?_free, if_pos rfl] at hmem
      cases hmem
    rw [retainers, get?_free_ne hbh] at hmem
    have hmem := hf.retained d b ((isDying_modify_ne hdh).trans hd) hmem
    rwa [retainers_dead] at hmem

end Follows

end Store

/-- What a composite names stands in the store. -/
theorem Store.Balanced.index_lt_of_named {missing extra : Store.Edges} {s : Store}
    {a h : Handle} {c : Composite}
    (hs : s.Balanced missing extra) (hc : s.get? a = some c) (hh : h ∈ c.named) :
      h.index < s.size :=
  hs.bounded _ _ (Store.bare?_of_get? hc) _ hh

namespace Discipline

/-- The lists of retainers stay in balance with the links. -/
def balance (missing extra : Store.Edges) : Discipline where
  holds := Store.Balanced missing extra
  leads := Store.Follows
  known s h := h.index < s.size
  strict := False
  leads_refl := Store.Follows.refl
  leads_trans := Store.Follows.trans
  known_mono hl hk := Nat.lt_of_lt_of_le hk hl.size
  known_there := Store.index_lt_size_of_contains
  known_named := Store.Balanced.index_lt_of_named
  sound_stored hstrict := hstrict.elim

instance {missing extra : Store.Edges} : (balance missing extra).Storewise := ⟨rfl⟩

/-- Which edges are missing or extra does not matter to the frames. -/
theorem Fits.rebalance {missing extra missing' extra' : Store.Edges} {m m' : Machine}
    (hm : (balance missing extra).Fits m) (hb : m'.store.Balanced missing' extra')
    (hl : m.store.size ≤ m'.store.size) (hc : m'.control = m.control) :
    (balance missing' extra').Fits m' where
  holds := hb
  frames t ht x hx := by
    have hknown := hm.frames t (by rw [← hc]; exact ht) x hx
    cases x with
    | handle => exact Nat.lt_of_lt_of_le hknown hl
    | type => exact hknown
  starts := trivial

end Discipline

end CompositeGraph
