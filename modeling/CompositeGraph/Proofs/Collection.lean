/-
  COLLECTION: what a mutation leaves alive.

  A mutation changes the links of one composite, lists the new ones and strikes off the old.  Where
  no deinitializer gets in between, what is left in the end is exactly what the new links reach from
  the roots, whatever circles there are; and it takes no more depth than the store has slots.

    1. KEPT.       What the lists keep once the new links are listed and the old ones struck off.
    2. MUTATIONS.  Each mutation as a change of links at one composite, and what is
left after it. -/
import CompositeGraph.Proofs.Differences

namespace CompositeGraph

open Run Store

/-! ## Kept -/

namespace Changed

variable {s : Store} {a : Handle} {c : Composite} {f : Composite → Composite}
  {new old : List Handle} {m : Machine}

/-- The store with the new links listed and the old ones struck off. -/
abbrev settled (a : Handle) (new old : List Handle) (m : Machine) : Store :=
  (m.store.listedIn a new).struckAll a (gone a old m)

/-- Every entry that is left then is a link, so what the lists keep is what the links lead to. -/
theorem kept_settled_iff (h : Changed s a c f new old m) {x : Handle} :
    (settled a new old m).Kept m.roots x ↔ m.store.Reachable m.roots x := by
  refine ⟨fun hx => ?_, h.releasing.without x⟩
  induction hx with
  | root hm => exact .root hm
  | @retained y x hl _ ih =>
    obtain ⟨hl, hstays⟩ := mem_retainers_struckAll.mp hl
    rcases mem_retainers_listedIn.mp hl with hl | ⟨rfl, _, hmem, hthere⟩
    · rw [h.retainers] at hl
      obtain ⟨hthere, _, hlink⟩ := h.symmetric.mem_retainers_iff.mp hl
      refine .link rfl ?_ (by rwa [h.contains]) ih
      by_cases hya : y = a
      · -- A link that was there before is there still, or it was struck off.
        subst hya
        rw [references_of_get? h.there] at hlink
        by_contra hgone
        have hold := (h.replaces.go x hlink).resolve_left (by rwa [← h.references_self])
        exact hstays ⟨rfl, List.mem_filter.mpr ⟨hold, by simpa using hgone⟩⟩
      · rwa [h.references_ne hya]
    · refine .link rfl ?_ hthere ih
      rw [h.references_self]
      exact h.replaces.new_mem x hmem

/-- Where everything was kept, what is kept no longer falls with the old links. -/
theorem kept_or_fallsAll (h : Changed s a c f new old m) {x : Handle} (hx : s.Kept m.roots x) :
    (settled a new old m).Kept m.roots x ∨
      (m.store.listedIn a new).FallsAll m.roots a (gone a old m) x := by
  have hself := h.kept_settled_iff.mpr h.reachable_self
  induction hx with
  | root hm => exact Or.inl (.root hm)
  | @retained y x hl hy ih =>
    by_cases hx : (settled a new old m).Kept m.roots x
    · exact Or.inl hx
    · refine Or.inr ?_
      have hlisted : y ∈ (m.store.listedIn a new).retainers x :=
        mem_retainers_listedIn.mpr (Or.inl (by rwa [h.retainers]))
      have halive : (settled a new old m).isAlive x = true := by
        rw [isAlive_of_bare? (bare?_struckAll x), isAlive_of_bare? (bare?_listedIn x)]
        refine (contains_iff_alive_or_dying.mp ?_).resolve_right fun hd => ?_
        · rw [h.contains]
          exact contains_of_mem_retainers hl
        · rw [h.isDying] at hd
          exact (h.dying x hd).1 (h.reachable_before (.retained hl hy))
      by_cases hentry : y = a ∧ x ∈ gone a old m
      · obtain ⟨rfl, hmem⟩ := hentry
        exact ⟨x, hmem, hlisted, .first halive hx⟩
      · have hstays := mem_retainers_struckAll.mpr ⟨hlisted, hentry⟩
        rcases ih with ih | ⟨w, hw, haw, ih⟩
        · exact absurd (.retained hstays ih) hx
        · exact ⟨w, hw, haw, .next ih hstays halive hx⟩

/-- Where nothing is dying and everything was kept, what is left is what the new links lead to. -/
theorem settle_leaves (h : Changed s a c f new old m) (hinert : m.Inert m.store) {depth : Nat}
    (hdepth : m.store.size < depth) (hlively : ∀ x, s.isDying x = false)
    (hkept : ∀ x, s.contains x = true → s.Kept m.roots x) :
    Ends m (settleAll (rules depth) a old new) fun _ m' => (∀ x, m'.store.isDying x = false) ∧
      ∀ x, m'.store.contains x = true ↔ m.store.contains x = true ∧
        m.store.Reachable m.roots x := by
  refine (h.settle hinert hdepth).mono ?_
  rintro _ m' hreleased
  have hdying : ∀ x, m'.store.isDying x = false := by
    intro x
    rw [hreleased.sheds.dying, isDying_of_bare? (bare?_listedIn x), h.isDying]
    exact hlively x
  have hthere : ∀ x, m'.store.contains x = true ↔ m'.store.isAlive x = true := by
    intro x
    rw [contains_iff_alive_or_dying, hdying x]
    simp
  refine ⟨hdying, fun x => (hthere x).trans ((hreleased.sheds.alive x).trans ?_)⟩
  rw [isAlive_of_bare? (bare?_listedIn x)]
  constructor
  · rintro ⟨halive, hstays⟩
    have hcontains := contains_of_isAlive halive
    refine ⟨hcontains,
      h.kept_settled_iff.mp ((h.kept_or_fallsAll (hkept x ?_)).resolve_right hstays)⟩
    rwa [h.contains] at hcontains
  · rintro ⟨hcontains, hreach⟩
    exact ⟨h.isAlive_of_reachable hreach hcontains, fun hfalls =>
      hfalls.not_kept (h.kept_settled_iff.mpr hreach)⟩

end Changed

/-! ## Mutations -/

/-- A machine whose store is symmetric, with nothing dying in it and everything kept. -/
structure Machine.AtRest (m : Machine) : Prop where
  symmetric : m.store.Symmetric
  lively : ∀ b c, m.store.get? b = some c → c.isAlive = true
  retained : ∀ b c, m.store.get? b = some c → m.isRetained b = true

instance {m : Machine} : Decidable m.AtRest :=
  decidable_of_iff (m.store.Symmetric ∧ (∀ e ∈ m.store.live, e.2.isAlive = true) ∧
      ∀ e ∈ m.store.live, m.isRetained e.1 = true)
    ⟨fun h => ⟨h.1, forall_get?_iff.mpr h.2.1, forall_get?_iff.mpr h.2.2⟩,
      fun h => ⟨h.symmetric, forall_get?_iff.mp h.lively, forall_get?_iff.mp h.retained⟩⟩

/-- From a machine at rest, a mutation comes to its end and leaves exactly those of the composites
    that the new links lead to from a root, unless an object that is destroyed has
    a deinitializer by then. -/
theorem mutation_leaves_reachable (mutation : Mutation) {m : Machine} {depth : Nat} (hm : m.AtRest)
    (hinert : m.Inert (mutation.applied m.store)) (hdepth : m.store.size < depth) :
    ∃ m', mutation.run (rules depth) m = .ok ((), m') ∧ (∀ h, m'.store.isDying h = false) ∧
      ∀ h, m'.store.contains h = true ↔
        m.store.contains h = true ∧ (mutation.applied m.store).Reachable m.roots h := by
  have hlively := isDying_of_lively hm.lively
  have hkept : ∀ h, m.store.contains h = true → m.store.Kept m.roots h := by
    intro h hh
    obtain ⟨c, hc⟩ := contains_iff.mp hh
    exact reaches_iff.mp (hm.retained h c hc)
  rcases mutation.run_cases m with ⟨hsame, hrun⟩ | ⟨c, f, new, old, hx, hf, hchange, _, hrun⟩
  · refine ⟨m, hrun _, hlively, fun h => ⟨fun hh => ⟨hh, ?_⟩, fun hh => hh.1⟩⟩
    rw [hsame]
    exact (hkept h hh).reachable hm.symmetric.paired hlively
  · have happlied : mutation.applied m.store = m.store.modify mutation.target f := by
      refine modify_congr fun d hd => ?_
      cases hx.symm.trans hd
      exact hchange.symm
    rw [happlied] at hinert ⊢
    have hroots := m.roots_modify mutation.target f
    have hchanged : Changed m.store mutation.target c f new old
        { m with store := m.store.modify mutation.target f } := by
      refine ⟨hm.symmetric, hx, hf, rfl, reaches_iff.mpr ?_, fun d hd => ?_⟩
      · rw [hroots]
        exact (hkept _ (contains_of_get? hx)).mono
          (fun y x hyx => by rwa [retainers_modify hf.retainers]) fun _ => id
      · rw [hlively d] at hd
        cases hd
    have hinert' : ({ m with store := m.store.modify mutation.target f } : Machine).Inert
        (m.store.modify mutation.target f) := by
      intro t ht
      rw [hroots] at ht ⊢
      exact hinert t ht
    obtain ⟨_, m', hrun', hdying, hleft⟩ :=
      hchanged.settle_leaves hinert' (by rwa [size_modify]) hlively
        fun h hh => by rw [hroots]; exact hkept h hh
    refine ⟨m', ?_, hdying, fun h => ?_⟩
    · rw [hrun]
      show forM (new ++ old) (retainOrRelease (rules depth) mutation.target) _ = _
      rw [List.forM_append]
      exact hrun'
    · rw [hleft h, hroots, contains_modify]

/-- The outermost namespace holds a namespace and that an object, which holds the
    namespace in turn. -/
def circle : Store :=
  let made (title : String) (kind : Kind) (name : String) (held : Handle)
    (retainers : List Handle) : Cell :=
    ⟨0, some { Composite.fresh (some title) (.ofKind kind) with
      links := { retainers }, members := Assoc.empty.put name [holding held] }⟩
  ⟨#[made "Global" .namespace "d" ⟨1, 0⟩ [], made "D" .namespace "o" ⟨2, 0⟩ [⟨0, 0⟩, ⟨2, 0⟩],
    made "O" .object "d" ⟨1, 0⟩ [⟨1, 0⟩]]⟩

/-- When the outermost namespace lets go, both of them are gone. -/
theorem mutation_leaves_reachable_circle :
    let m := Machine.withStore circle {}
    let mutation := Mutation.removeMember ⟨0, 0⟩ "d"
    m.AtRest ∧ m.Inert (mutation.applied circle) ∧ circle.size < 4 ∧
      ∃ m', mutation.run (rules 4) m = .ok ((), m') ∧ m'.store.contains ⟨0, 0⟩ = true ∧
        m'.store.contains ⟨1, 0⟩ = false ∧ m'.store.contains ⟨2, 0⟩ = false := by
  intro m mutation
  have hrest : m.AtRest := by decide
  have hinert : m.Inert (mutation.applied circle) := Machine.inert_of_unnamed
    ⟨by decide, forall_get?_iff.mpr (by decide), forall_get?_iff.mpr (by decide)⟩
  have hdepth : circle.size < 4 := by decide
  obtain ⟨m', hrun, _, hleft⟩ := mutation_leaves_reachable mutation hrest hinert hdepth
  refine ⟨hrest, hinert, hdepth, m', hrun, (hleft _).mpr (by decide), ?_, ?_⟩
  · exact Bool.eq_false_iff.mpr (mt (hleft _).mp (by decide))
  · exact Bool.eq_false_iff.mpr (mt (hleft _).mp (by decide))

/-- A class holds its only object under `deinit`; a function is to take the place of the object. -/
def replacedDeinit : List Request :=
  [.createNamespace (some "Global") none .own,
    .pushScope ⟨⟨0, 0⟩, none, none⟩,
    .createSelfLeveled (some "K") .class (some ⟨0, 0⟩),
    .mutate (.setMember ⟨0, 0⟩ "K" (holding ⟨1, 0⟩) .append),
    .createObject none ⟨1, 0⟩ none,
    .mutate (.setMember ⟨1, 0⟩ "deinit" (holding ⟨2, 0⟩) .append),
    .createFunction (some "F") makesFunction (some ⟨0, 0⟩),
    .mutate (.setMember ⟨0, 0⟩ "f" (holding ⟨3, 0⟩) .append),
    .mutate (.setMember ⟨0, 0⟩ "x" { type := .empty } .append)]

/-- A namespace holds a function and an object.  The object has two functions under `deinit`; the
    first of them is virtual, and the object below the object has nothing of that name. -/
def shadowedDeinit : List Request :=
  [.createNamespace (some "Global") none .own,
    .pushScope ⟨⟨0, 0⟩, none, none⟩,
    .createSelfLeveled (some "K") .class (some ⟨0, 0⟩),
    .mutate (.setMember ⟨0, 0⟩ "K" (holding ⟨1, 0⟩) .append),
    .createNamespace (some "D") (some ⟨0, 0⟩) .missing,
    .mutate (.setMember ⟨0, 0⟩ "d" (holding ⟨2, 0⟩) .append),
    .createFunction (some "F") .none (some ⟨0, 0⟩),
    .mutate (.setMember ⟨2, 0⟩ "f" (holding ⟨3, 0⟩) .append),
    .createObject none ⟨1, 0⟩ none,
    .mutate (.setMember ⟨2, 0⟩ "o" (holding ⟨4, 0⟩) .append),
    .createObject none ⟨1, 0⟩ none,
    .setSubLevels ⟨4, 0⟩ (some ⟨5, 0⟩),
    .createFunction (some "G") makesFunction (some ⟨0, 0⟩),
    .mutate (.setMember ⟨4, 0⟩ "deinit" { holding ⟨3, 0⟩ with modifiers := ["virtual"] } .append),
    .mutate (.setMember ⟨4, 0⟩ "deinit" (holding ⟨6, 0⟩) .append),
    .mutate (.setMember ⟨0, 0⟩ "x" { type := .empty } .append)]

/-- Whether a mutation comes to its end and leaves a composite in the store that the new links do
    not reach. -/
def leavesBeyond (mutation : Mutation) (m : Machine) (h : Handle) : Bool :=
  match mutation.run (rules 40) m with
  | .ok (_, m') => m'.store.contains h && !decide ((mutation.applied m.store).Reachable m.roots h)
  | .error _ => false

/-- A mutation from a machine at rest in which no object has a deinitializer may leave more than
    what is within reach: the mutation itself may give one to an object that it releases, and so may
    destroying another composite first. -/
theorem mutation_leaves_beyond_reach :
    (∃ m, session (rules 40) replacedDeinit (.fresh {}) = some m ∧ m.AtRest ∧
      (∀ e ∈ m.store.live, e.2.is .object = true → m.deinitializer? e.1 = none) ∧
      leavesBeyond (.setMember ⟨1, 0⟩ "deinit" (holding ⟨3, 0⟩) .first) m ⟨5, 0⟩ = true) ∧
    ∃ m, session (rules 40) shadowedDeinit (.fresh {}) = some m ∧ m.AtRest ∧
      (∀ e ∈ m.store.live, e.2.is .object = true → m.deinitializer? e.1 = none) ∧
      (∀ e ∈ ((Mutation.removeMember ⟨0, 0⟩ "d").applied m.store).live, e.2.is .object = true →
        ({ m with store := (Mutation.removeMember ⟨0, 0⟩ "d").applied m.store } :
          Machine).deinitializer? e.1 =
          none) ∧
      leavesBeyond (.removeMember ⟨0, 0⟩ "d") m ⟨5, 0⟩ = true := by
  have hcheck : ∀ {setup : List Request} {p : Machine → Prop} [DecidablePred p],
      (session (rules 40) setup (.fresh {})).map (fun m => decide (p m)) = some true →
        ∃ m, session (rules 40) setup (.fresh {}) = some m ∧ p m := by
    intro setup p _ h
    obtain ⟨m, hm, hp⟩ := Option.map_eq_some_iff.mp h
    exact ⟨m, hm, of_decide_eq_true hp⟩
  exact ⟨hcheck (by decide +kernel), hcheck (by decide +kernel)⟩

end CompositeGraph
