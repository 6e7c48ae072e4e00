/-
  PATHS from retainer to retainer.

  Whether a composite is kept is decided by a search: a stack of handles that are waiting, and the
  handles that were looked at.  The retainers of a composite are put on the stack as they are
  listed, so a handle may wait several times over, may be stale, and may be one of a circle.
  `Store.Scan` says what such a search does, one rule for each thing that can happen at the top of
  the stack, with no bound on the number of steps.

    1. PATHS.      `Store.IsPath`: from a composite over retainers to a root.
    2. THE SEARCH. `Store.Scan`; it looks at no handle twice, and there is one search at most.
    3. ITS END.    Each step looks at a handle that was not looked at before, or
                   takes one off the stack.
    4. EXACTNESS.  The search comes to a root exactly if there is a path, and
                   `Store.reaches` is its answer.
-/
import CompositeGraph.Proofs.Reachability

namespace CompositeGraph.Store

/-! ## Paths -/

/-- A path starts at a composite, goes on from each composite to one of its
    retainers, and ends at a root. -/
structure IsPath (s : Store) (roots : List Handle) (target : Handle)
    (path : List Handle) : Prop where
  start : path.head? = some target
  steps : path.IsChain fun x y => y ∈ s.retainers x
  stop : ∃ root ∈ roots, path.getLast? = some root

variable {s : Store} {roots : List Handle}

theorem isPath_root {h : Handle} (hroot : h ∈ roots) : s.IsPath roots h [h] :=
  ⟨rfl, .singleton h, h, hroot, rfl⟩

theorem IsPath.cons {a h : Handle} {path : List Handle} (ha : a ∈ s.retainers h)
    (hp : s.IsPath roots a path) : s.IsPath roots h (h :: path) := by
  obtain ⟨root, hroot, hlast⟩ := hp.stop
  obtain ⟨rest, rfl⟩ : ∃ rest, path = a :: rest := List.head?_eq_some_iff.mp hp.start
  exact ⟨rfl, .cons_cons ha hp.steps, root, hroot, by rw [List.getLast?_cons_cons, hlast]⟩

/-- A composite is kept if a path leads from it to a root. -/
theorem kept_iff_exists_isPath {h : Handle} : s.Kept roots h ↔ ∃ path, s.IsPath roots h path := by
  constructor
  · intro hkept
    induction hkept with
    | root hroot => exact ⟨_, isPath_root hroot⟩
    | retained ha _ ih =>
      obtain ⟨path, hpath⟩ := ih
      exact ⟨_, hpath.cons ha⟩
  · rintro ⟨path, hstart, hsteps, root, hroot, hlast⟩
    induction path generalizing h with
    | nil => cases hstart
    | cons x rest ih =>
      obtain rfl : x = h := Option.some.inj hstart
      cases rest with
      | nil =>
        obtain rfl : x = root := Option.some.inj hlast
        exact .root hroot
      | cons y rest =>
        obtain ⟨hy, hrest⟩ := List.isChain_cons_cons.mp hsteps
        exact .retained hy (ih rfl hrest (by rwa [List.getLast?_cons_cons] at hlast))

/-! ## The search -/

/-- A search with the handles that it has looked at and those that wait: which it looks at from
    there on, and whether it meets a root.  What was looked at is passed over.  The retainers of
    anything else come before the rest, the last of them first. -/
inductive Scan (s : Store) (roots : List Handle) :
    (visited stack visits : List Handle) → (met : Bool) → Prop where
  | exhausted {visited : List Handle} : Scan s roots visited [] [] false
  | again {visited rest visits : List Handle} {met : Bool} {h : Handle} : h ∈ visited →
      Scan s roots visited rest visits met → Scan s roots visited (h :: rest) visits met
  | met {visited rest : List Handle} {h : Handle} : h ∉ visited → h ∈ roots →
      Scan s roots visited (h :: rest) [h] true
  | onward {visited rest visits : List Handle} {met : Bool} {h : Handle} : h ∉ visited → h ∉ roots →
      Scan s roots (h :: visited) ((s.retainers h).reverse ++ rest) visits met →
      Scan s roots visited (h :: rest) (h :: visits) met

namespace Scan

variable {visited stack visits : List Handle} {met : Bool}

theorem not_mem_visited (hscan : s.Scan roots visited stack visits met) :
    ∀ v ∈ visits, v ∉ visited := by
  induction hscan with
  | exhausted => exact fun _ hv => absurd hv List.not_mem_nil
  | again _ _ ih => exact ih
  | met hnew _ => exact List.forall_mem_singleton.mpr hnew
  | onward hnew _ _ ih =>
    exact List.forall_mem_cons.mpr ⟨hnew, fun v hv hmem => ih v hv (List.mem_cons_of_mem _ hmem)⟩

/-- Nothing is looked at twice. -/
theorem nodup (hscan : s.Scan roots visited stack visits met) : visits.Nodup := by
  induction hscan with
  | exhausted => exact List.nodup_nil
  | again _ _ ih => exact ih
  | met => exact List.nodup_singleton _
  | onward _ _ hrest ih =>
    exact List.nodup_cons.mpr ⟨fun hmem => hrest.not_mem_visited _ hmem List.mem_cons_self, ih⟩

/-- A search that meets a root started from something kept. -/
theorem exists_kept (hscan : s.Scan roots visited stack visits true) :
    ∃ h ∈ stack, s.Kept roots h := by
  generalize hmet : true = met at hscan
  induction hscan with
  | exhausted => cases hmet
  | again _ _ ih =>
    obtain ⟨x, hx, hkept⟩ := ih hmet
    exact ⟨x, List.mem_cons_of_mem _ hx, hkept⟩
  | met _ hroot => exact ⟨_, List.mem_cons_self, .root hroot⟩
  | onward _ _ _ ih =>
    obtain ⟨x, hx, hkept⟩ := ih hmet
    rcases List.mem_append.mp hx with hx | hx
    · exact ⟨_, List.mem_cons_self, .retained (List.mem_reverse.mp hx) hkept⟩
    · exact ⟨x, List.mem_cons_of_mem _ hx, hkept⟩

/-- The retainers of what was looked at were looked at themselves, or are waiting. -/
def Pursued (s : Store) (roots visited stack : List Handle) : Prop :=
  ∀ v ∈ visited, v ∉ roots ∧ ∀ a ∈ s.retainers v, a ∈ visited ∨ a ∈ stack

/-- A search that meets no root leaves a closed set behind, with all that it started from. -/
theorem exists_pursued (hscan : s.Scan roots visited stack visits false)
    (hpursued : Pursued s roots visited stack) :
    ∃ V, (∀ v ∈ visited, v ∈ V) ∧ (∀ h ∈ stack, h ∈ V) ∧ Pursued s roots V [] := by
  generalize hmet : false = met at hscan
  induction hscan with
  | exhausted => exact ⟨_, fun _ hv => hv, fun _ hh => absurd hh List.not_mem_nil, hpursued⟩
  | again hseen _ ih =>
    obtain ⟨V, hvisited, hrest, hclosed⟩ := ih (by
      intro v hv
      refine ⟨(hpursued v hv).1, fun a ha => ?_⟩
      rcases (hpursued v hv).2 a ha with hm | hm
      · exact Or.inl hm
      · rcases List.mem_cons.mp hm with rfl | hm
        · exact Or.inl hseen
        · exact Or.inr hm) hmet
    exact ⟨V, hvisited, List.forall_mem_cons.mpr ⟨hvisited _ hseen, hrest⟩, hclosed⟩
  | met => cases hmet
  | onward _ hroot _ ih =>
    obtain ⟨V, hvisited, hwaiting, hclosed⟩ := ih (by
      intro v hv
      rcases List.mem_cons.mp hv with rfl | hv
      · exact ⟨hroot, fun a ha => Or.inr (List.mem_append_left _ (List.mem_reverse.mpr ha))⟩
      · refine ⟨(hpursued v hv).1, fun a ha => ?_⟩
        rcases (hpursued v hv).2 a ha with hm | hm
        · exact Or.inl (List.mem_cons_of_mem _ hm)
        · rcases List.mem_cons.mp hm with rfl | hm
          · exact Or.inl List.mem_cons_self
          · exact Or.inr (List.mem_append_right _ hm)) hmet
    obtain ⟨hh, hvisited⟩ := List.forall_mem_cons.mp hvisited
    refine ⟨V, hvisited, List.forall_mem_cons.mpr ⟨hh, fun x hx => ?_⟩, hclosed⟩
    exact hwaiting x (List.mem_append_right _ hx)

/-- A search from one composite meets a root exactly if the composite is kept. -/
theorem met_iff {target : Handle} (hscan : s.Scan roots [] [target] visits met) :
    met = true ↔ s.Kept roots target := by
  cases met with
  | true =>
    obtain ⟨h, hh, hkept⟩ := hscan.exists_kept
    rw [List.mem_singleton.mp hh] at hkept
    exact iff_of_true rfl hkept
  | false =>
    obtain ⟨V, _, htarget, hclosed⟩ := hscan.exists_pursued fun v hv => absurd hv List.not_mem_nil
    refine iff_of_false Bool.false_ne_true fun hkept => ?_
    exact hkept.not_mem (fun v hv => (hclosed v hv).1)
      (fun v hv a ha => ((hclosed v hv).2 a ha).resolve_right List.not_mem_nil)
      (htarget _ List.mem_cons_self)

end Scan

/-! ## Its end -/

/-- All handles that are listed as retainers somewhere in the store, stale ones included. -/
def listed (s : Store) : List Handle := s.live.flatMap fun entry => entry.2.links.retainers

theorem mem_listed {a h : Handle} (ha : a ∈ s.retainers h) : a ∈ s.listed := by
  obtain ⟨c, hc⟩ := contains_iff.mp (contains_of_mem_retainers ha)
  rw [retainers_of_get? hc] at ha
  exact List.mem_flatMap.mpr ⟨(h, c), mem_live.mpr hc, ha⟩

/-- One handle less is left to be looked at. -/
theorem length_filter_cons_lt {visited all : List Handle} {h : Handle} (hmem : h ∈ all)
    (hnew : h ∉ visited) : (all.filter fun x => !(h :: visited).contains x).length <
      (all.filter fun x => !visited.contains x).length := by
  have hfilter : (all.filter fun x => !(h :: visited).contains x) =
      (all.filter fun x => !visited.contains x).filter fun x => x != h := by
    rw [List.filter_filter]
    refine List.filter_congr fun x _ => ?_
    by_cases hx : x = h <;> simp [hx]
  rw [hfilter]
  refine List.length_filter_lt_length_iff_exists.mpr ⟨h, ?_, by simp⟩
  exact List.mem_filter.mpr ⟨hmem, by simpa using hnew⟩

/-- From any stack the search comes to an end: there are finitely many handles to look at, and
    between two of them the stack only gets lower. -/
theorem exists_scan (s : Store) (roots all : List Handle)
    (hclosed : ∀ h, ∀ a ∈ s.retainers h, a ∈ all) (visited stack : List Handle)
    (hstack : ∀ h ∈ stack, h ∈ all) : ∃ visits met, s.Scan roots visited stack visits met := by
  generalize hleft : (all.filter fun x => !visited.contains x).length = left
  induction left using Nat.strongRecOn generalizing visited stack with
  | ind left ihleft =>
    induction stack with
    | nil => exact ⟨[], false, .exhausted⟩
    | cons h rest ihrest =>
      obtain ⟨hh, hrest⟩ := List.forall_mem_cons.mp hstack
      by_cases hseen : h ∈ visited
      · obtain ⟨visits, met, hscan⟩ := ihrest hrest
        exact ⟨visits, met, .again hseen hscan⟩
      by_cases hroot : h ∈ roots
      · exact ⟨[h], true, .met hseen hroot⟩
      have hless := length_filter_cons_lt hh hseen
      rw [hleft] at hless
      obtain ⟨visits, met, hscan⟩ := ihleft _ hless (h :: visited) ((s.retainers h).reverse ++ rest)
        (List.forall_mem_append.mpr ⟨fun a ha => hclosed h a (List.mem_reverse.mp ha), hrest⟩) rfl
      exact ⟨h :: visits, met, .onward hseen hroot hscan⟩

theorem exists_scan_from (s : Store) (roots : List Handle) (target : Handle) :
    ∃ visits met, s.Scan roots [] [target] visits met := by
  refine s.exists_scan roots (target :: s.listed) ?_ [] [target] ?_
  · exact fun h a ha => List.mem_cons_of_mem _ (mem_listed ha)
  · exact List.forall_mem_singleton.mpr List.mem_cons_self

/-! ## Exactness -/

theorem Scan.met_eq_reaches {target : Handle} {visits : List Handle} {met : Bool}
    (hscan : s.Scan roots [] [target] visits met) : met = s.reaches roots target :=
  Bool.eq_iff_iff.mpr (hscan.met_iff.trans reaches_iff.symm)

/-- In every store, whatever is listed in it, the search for a root from a composite comes to an end
    and looks at each handle once at most; its answer is that of `reaches`, and it is yes exactly if
    a path leads from the composite over retainers to a root. -/
theorem reaches_iff_exists_isPath (s : Store) (roots : List Handle) (target : Handle) :
    (∃ visits, visits.Nodup ∧ s.Scan roots [] [target] visits (s.reaches roots target)) ∧
      (∀ visits met, s.Scan roots [] [target] visits met → met = s.reaches roots target) ∧
      (s.reaches roots target = true ↔ ∃ path, s.IsPath roots target path) := by
  refine ⟨?_, fun _ _ hscan => hscan.met_eq_reaches, reaches_iff.trans kept_iff_exists_isPath⟩
  obtain ⟨visits, met, hscan⟩ := s.exists_scan_from roots target
  obtain rfl := hscan.met_eq_reaches
  exact ⟨visits, hscan.nodup, hscan⟩

end CompositeGraph.Store
