/-
  REACHABILITY, backwards over lists of retainers and forwards along links.

    1. KEPT.      `Store.Kept roots h`: `h` is a root, or one of its retainers is kept.
    2. THE WALK.  `reachesFrom` visits each composite at most once.  If it meets no root, what it
                  has visited is closed: whoever retains a composite in it is in it too, and is no
                  root.  The number of slots bounds the number of visits, so the
                  walk is never cut short.
    3. EXACTNESS. `reaches_iff`: the walk says yes exactly for what is kept.
    4. LINKED.    `Store.Linked via roots h`: links lead from a root to `h`, through composites of a
                  sort.  If the lists were made from these links, this would be what they keep; so
                  the walk decides it.
-/
import CompositeGraph.Proofs.StoreLaws
import Mathlib.Data.Finset.Card
import Mathlib.Data.List.TakeWhile

namespace CompositeGraph.Store

/-! ## Kept -/

/-- A composite is kept if it is a root, or if something that is kept retains it. -/
inductive Kept (s : Store) (roots : List Handle) : Handle → Prop where
  | root {h : Handle} : h ∈ roots → Kept s roots h
  | retained {a h : Handle} : a ∈ s.retainers h → Kept s roots a → Kept s roots h

variable {s : Store} {roots : List Handle}

/-- More retainers and more roots keep more. -/
theorem Kept.mono {t : Store} {more : List Handle} {h : Handle}
    (hr : ∀ a b, a ∈ s.retainers b → a ∈ t.retainers b) (hroots : ∀ r ∈ roots, r ∈ more)
    (hh : s.Kept roots h) : t.Kept more h := by
  induction hh with
  | root hm => exact .root (hroots _ hm)
  | retained ha _ ih => exact .retained (hr _ _ ha) ih

/-- A set that no root is in and that is closed under retainers holds nothing that is kept. -/
theorem Kept.not_mem {V : Handle → Prop} {h : Handle} (hh : s.Kept roots h)
    (hroot : ∀ v, V v → v ∉ roots) (hclosed : ∀ v, V v → ∀ a ∈ s.retainers v, V a) : ¬V h := by
  induction hh with
  | root hm => exact fun hv => hroot _ hv hm
  | retained ha _ ih => exact fun hv => ih (hclosed _ hv _ ha)

/-! ## The walk -/

/-- A list of different composites is no longer than the store has slots. -/
theorem length_le_size {handles : List Handle} (hnodup : handles.Nodup)
    (hthere : ∀ h ∈ handles, s.contains h = true) : handles.length ≤ s.size := by
  have hindices : (handles.map Handle.index).Nodup := by
    refine hnodup.map_on ?_
    intro a ha b hb hi
    exact eq_of_index_eq (hthere a ha) (hthere b hb) hi
  have hsub : (handles.map Handle.index).toFinset ⊆ Finset.range s.size := by
    intro i hi
    obtain ⟨h, hh, rfl⟩ := List.mem_map.mp (List.mem_toFinset.mp hi)
    exact Finset.mem_range.mpr (index_lt_size_of_contains (hthere h hh))
  calc handles.length = (handles.map Handle.index).length := (List.length_map _).symm
    _ = (handles.map Handle.index).toFinset.card := (List.toFinset_card_of_nodup hindices).symm
    _ ≤ (Finset.range s.size).card := Finset.card_le_card hsub
    _ = s.size := Finset.card_range _

/-- As many different composites as there are slots are all there are. -/
theorem mem_of_size_le_length {handles : List Handle} (hnodup : handles.Nodup)
    (hthere : ∀ h ∈ handles, s.contains h = true) (hlong : s.size ≤ handles.length) {h : Handle}
    (hh : s.contains h = true) : h ∈ handles := by
  by_cases hmem : h ∈ handles
  · exact hmem
  · have hcons : (h :: handles).length ≤ s.size := by
      refine length_le_size (List.nodup_cons.mpr ⟨hmem, hnodup⟩) ?_
      intro x hx
      rcases List.mem_cons.mp hx with rfl | hx
      · exact hh
      · exact hthere x hx
    rw [List.length_cons] at hcons
    omega

/-- What is waiting is passed over or stays in the rest of the list. -/
theorem passed_or_mem_dropWhile (p : Handle → Bool) {pending : List Handle} {h : Handle}
    (hh : h ∈ pending) : p h = true ∨ h ∈ pending.dropWhile p := by
  rw [← List.takeWhile_append_dropWhile (p := p) (l := pending)] at hh
  rcases List.mem_append.mp hh with ht | hd
  · exact Or.inl (List.mem_takeWhile_imp ht)
  · exact Or.inr hd

/-- A walk that meets a root started from something kept. -/
theorem exists_kept_of_reachesFrom {steps : Nat} {visited pending : List Handle}
    (hw : s.reachesFrom roots steps visited pending = true) : ∃ h ∈ pending, s.Kept roots h := by
  induction steps generalizing visited pending with
  | zero => simp [reachesFrom] at hw
  | succ steps ih =>
    rw [reachesFrom] at hw
    split at hw
    · exact absurd hw (by simp)
    · rename_i h rest hdrop
      have hsub : ∀ x ∈ h :: rest, x ∈ pending := by
        intro x hx
        rw [← hdrop] at hx
        exact (List.dropWhile_sublist _).subset hx
      rcases Bool.or_eq_true_iff.mp hw with hroot | hrest
      · obtain ⟨a, ha, hmem⟩ := List.any_eq_true.mp hroot
        exact ⟨h, hsub h List.mem_cons_self, .retained ha (.root (List.contains_iff_mem.mp hmem))⟩
      · obtain ⟨x, hx, hkept⟩ := ih hrest
        rcases List.mem_append.mp hx with hx | hx
        · exact ⟨h, hsub h List.mem_cons_self, .retained hx hkept⟩
        · exact ⟨x, hsub x (List.mem_cons_of_mem _ hx), hkept⟩

/-- `Explored roots visited pending`: whoever retains a visited composite is no root, and is visited
    or waiting if it is there at all. -/
def Explored (s : Store) (roots visited pending : List Handle) : Prop :=
  ∀ v ∈ visited, ∀ a ∈ s.retainers v, a ∉ roots ∧ (s.contains a = true → a ∈ visited ∨ a ∈ pending)

/-- A walk that meets no root leaves a closed set behind, with all that it started from. -/
theorem exists_explored_of_reachesFrom {steps : Nat} {visited pending : List Handle}
    (hnodup : visited.Nodup) (hthere : ∀ v ∈ visited, s.contains v = true)
    (henough : s.size ≤ visited.length + steps) (hexplored : s.Explored roots visited pending)
    (hw : s.reachesFrom roots steps visited pending = false) :
    ∃ V, (∀ v ∈ visited, v ∈ V) ∧ (∀ p ∈ pending, s.contains p = true → p ∈ V) ∧
      s.Explored roots V [] := by
  induction steps generalizing visited pending with
  | zero =>
    -- every composite is visited, so nothing that waits is new
    have hall : ∀ h, s.contains h = true → h ∈ visited :=
      fun h hh => mem_of_size_le_length hnodup hthere (by omega) hh
    refine ⟨visited, fun _ hv => hv, fun p _ hp => hall p hp, ?_⟩
    intro v hv a ha
    exact ⟨(hexplored v hv a ha).1, fun hc => Or.inl (hall a hc)⟩
  | succ steps ih =>
    rw [reachesFrom] at hw
    have hpassed : ∀ h ∈ pending, s.contains h = true → h ∈ visited ∨
        h ∈ pending.dropWhile fun h => visited.contains h || !s.contains h := by
      intro h hh hc
      rcases passed_or_mem_dropWhile (fun h => visited.contains h || !s.contains h) hh with hp | hd
      · rcases Bool.or_eq_true_iff.mp hp with hv | hn
        · exact Or.inl (List.contains_iff_mem.mp hv)
        · rw [hc] at hn; exact absurd hn (by simp)
      · exact Or.inr hd
    split at hw
    · rename_i hdrop
      rw [hdrop] at hpassed
      have hdone : ∀ h ∈ pending, s.contains h = true → h ∈ visited :=
        fun h hh hc => (hpassed h hh hc).resolve_right (List.not_mem_nil)
      refine ⟨visited, fun _ hv => hv, hdone, ?_⟩
      intro v hv a ha
      refine ⟨(hexplored v hv a ha).1, fun hc => Or.inl ?_⟩
      rcases (hexplored v hv a ha).2 hc with h | h
      · exact h
      · exact hdone a h hc
    · rename_i h rest hdrop
      rw [hdrop] at hpassed
      have hnew := List.head?_dropWhile_not (fun h => visited.contains h || !s.contains h) pending
      rw [hdrop] at hnew
      obtain ⟨hunseen, hhere⟩ := Bool.or_eq_false_iff.mp hnew
      have hunseen : h ∉ visited := by
        intro hm
        rw [List.contains_iff_mem.mpr hm] at hunseen
        exact absurd hunseen (by simp)
      have hhere : s.contains h = true := by simpa using hhere
      obtain ⟨hnoroot, hrest⟩ := Bool.or_eq_false_iff.mp hw
      have hnext : s.Explored roots (h :: visited) (s.retainers h ++ rest) := by
        intro v hv a ha
        rcases List.mem_cons.mp hv with rfl | hv
        · refine ⟨fun hr => ?_, fun _ => Or.inr (List.mem_append_left _ ha)⟩
          have := List.any_eq_false.mp hnoroot a ha
          exact this (List.contains_iff_mem.mpr hr)
        · refine ⟨(hexplored v hv a ha).1, fun hc => ?_⟩
          rcases (hexplored v hv a ha).2 hc with hm | hm
          · exact Or.inl (List.mem_cons_of_mem _ hm)
          · rcases hpassed a hm hc with hm | hm
            · exact Or.inl (List.mem_cons_of_mem _ hm)
            · rcases List.mem_cons.mp hm with rfl | hm
              · exact Or.inl List.mem_cons_self
              · exact Or.inr (List.mem_append_right _ hm)
      obtain ⟨V, hvisited, hpending, hclosed⟩ := ih (List.nodup_cons.mpr ⟨hunseen, hnodup⟩)
        (by
          intro v hv
          rcases List.mem_cons.mp hv with rfl | hv
          · exact hhere
          · exact hthere v hv)
        (by rw [List.length_cons]; omega) hnext hrest
      have hseen : ∀ v ∈ visited, v ∈ V := fun v hv => hvisited v (List.mem_cons_of_mem _ hv)
      refine ⟨V, hseen, ?_, hclosed⟩
      intro p hp hc
      rcases hpassed p hp hc with hm | hm
      · exact hseen p hm
      · rcases List.mem_cons.mp hm with rfl | hm
        · exact hvisited _ List.mem_cons_self
        · exact hpending p (List.mem_append_right _ hm) hc

/-! ## Exactness -/

/-- The walk says yes exactly for what is kept. -/
theorem reaches_iff {h : Handle} : s.reaches roots h = true ↔ s.Kept roots h := by
  constructor
  · intro hw
    rcases Bool.or_eq_true_iff.mp hw with hroot | hwalk
    · exact .root (List.contains_iff_mem.mp hroot)
    · obtain ⟨x, hx, hkept⟩ := exists_kept_of_reachesFrom hwalk
      rw [← List.mem_singleton.mp hx]
      exact hkept
  · intro hkept
    cases hw : s.reaches roots h with
    | true => rfl
    | false =>
      exfalso
      obtain ⟨hroot, hwalk⟩ := Bool.or_eq_false_iff.mp hw
      have hroot : h ∉ roots := by
        intro hm
        rw [List.contains_iff_mem.mpr hm] at hroot
        exact absurd hroot (by simp)
      obtain ⟨V, -, hstart, hclosed⟩ := exists_explored_of_reachesFrom
        List.nodup_nil (by simp) (by simp) (by intro v hv; exact absurd hv (by simp)) hwalk
      -- a retainer that is no longer there has none of its own, so it is kept only as a root
      refine hkept.not_mem (V := fun v => v ∉ roots ∧ (s.contains v = true → v ∈ V))
        (fun v hv => hv.1) ?_ ⟨hroot, fun hc => hstart h List.mem_cons_self hc⟩
      intro v hv a ha
      have hav := hclosed v (hv.2 (contains_of_mem_retainers ha)) a ha
      exact ⟨hav.1, fun hc => (hav.2 hc).resolve_right (List.not_mem_nil)⟩

/-! ## Linked -/

/-- A composite is linked if it is a root, or if something that is linked itself, and that `via`
    allows, is linked to it. -/
inductive Linked (s : Store) (via : Handle → Bool) (roots : List Handle) : Handle → Prop where
  | root {h : Handle} : h ∈ roots → Linked s via roots h
  | link {a h : Handle} : via a = true → h ∈ s.references a → s.contains h = true →
      Linked s via roots a → Linked s via roots h

variable {via : Handle → Bool}

/-- Lists that miss no link keep all that is linked. -/
theorem Linked.kept {h : Handle}
    (hlisted : ∀ a b, via a = true → b ∈ s.references a → s.contains b = true →
      a ≠ b → a ∈ s.retainers b) (hh : s.Linked via roots h) : s.Kept roots h := by
  induction hh with
  | root hm => exact .root hm
  | @link a h hvia hlink hthere _ ih =>
    by_cases hah : a = h
    · exact hah ▸ ih
    · exact .retained (hlisted a h hvia hlink hthere hah) ih

/-- Those of a sort that are linked to a composite. -/
def linkers (s : Store) (via : Handle → Bool) (h : Handle) : List Handle :=
  (s.live.filter fun e => via e.1 && e.2.references.contains h).map (·.1)

theorem mem_linkers {a h : Handle} : a ∈ s.linkers via h ↔ via a = true ∧ h ∈ s.references a := by
  simp only [linkers, List.mem_map, List.mem_filter, Bool.and_eq_true, List.contains_iff_mem]
  constructor
  · rintro ⟨⟨b, c⟩, ⟨hlive, hvia, hlink⟩, rfl⟩
    exact ⟨hvia, by rwa [references_of_get? (mem_live.mp hlive)]⟩
  · rintro ⟨hvia, hlink⟩
    obtain ⟨c, hc⟩ := contains_iff.mp (contains_of_mem_references hlink)
    rw [references_of_get? hc] at hlink
    exact ⟨(a, c), ⟨mem_live.mpr hc, hvia, hlink⟩, rfl⟩

/-- The store with its lists of retainers made from the links. -/
def relist (s : Store) (via : Handle → Bool) : Store :=
  ⟨s.cells.mapIdx fun index cell =>
    { cell with composite := cell.composite.map fun c =>
        c.mapRetainers fun _ => s.linkers via ⟨index, cell.generation⟩ }⟩

theorem get?_relist (h : Handle) :
    (s.relist via).get? h = (s.get? h).map fun c => c.mapRetainers fun _ => s.linkers via h := by
  simp only [get?, relist, Array.getElem?_mapIdx]
  cases hc : s.cells[h.index]? with
  | none => rfl
  | some cell =>
    simp only [Option.map_some]
    by_cases hg : cell.generation = h.generation
    · rw [if_pos hg, if_pos hg, hg]
    · rw [if_neg hg, if_neg hg]
      rfl

theorem mem_retainers_relist {a h : Handle} :
    a ∈ (s.relist via).retainers h ↔ via a = true ∧ h ∈ s.references a ∧ s.contains h = true := by
  cases hh : s.get? h with
  | none =>
    have hnone : (s.relist via).get? h = none := by rw [get?_relist, hh]; rfl
    simp [retainers, hnone, contains, hh]
  | some c =>
    have hsome : (s.relist via).get? h = some (c.mapRetainers fun _ => s.linkers via h) := by
      rw [get?_relist, hh]; rfl
    rw [retainers_of_get? hsome]
    simp [Composite.mapRetainers, mem_linkers, contains, hh]

theorem linked_iff {h : Handle} : s.Linked via roots h ↔ (s.relist via).reaches roots h = true := by
  rw [reaches_iff]
  constructor
  · intro hh
    induction hh with
    | root hm => exact .root hm
    | link hvia hlink hthere _ ih =>
        exact .retained (mem_retainers_relist.mpr ⟨hvia, hlink, hthere⟩) ih
  · intro hh
    induction hh with
    | root hm => exact .root hm
    | retained ha _ ih =>
      obtain ⟨hvia, hlink, hthere⟩ := mem_retainers_relist.mp ha
      exact .link hvia hlink hthere ih

instance {h : Handle} : Decidable (s.Linked via roots h) := decidable_of_iff _ linked_iff.symm

end CompositeGraph.Store
