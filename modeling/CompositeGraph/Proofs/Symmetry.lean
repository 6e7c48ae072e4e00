/-
  SYMMETRY: whatever is done to a machine from outside, each composite lists exactly those that are
  linked to it.

    1. SYMMETRY.   `Store.Symmetric` and `Store.IsSeed`, both decidable; balance in a store in which
                   nothing is dying.
    2. REQUESTS.   `Request`: what can be asked of a machine, modules included.
    3. SESSIONS.   One request keeps the balance, so a session does.
-/
import CompositeGraph.Proofs.Destruction

namespace CompositeGraph

open Run Discipline

/-! ## Symmetry -/

/-- No edges. -/
def noEdges : Store.Edges := fun _ _ => False

namespace Store

variable {s : Store}

/-- Each composite lists its retainers once, and these are exactly the other composites in the store
    that are linked to it. -/
def Symmetric (s : Store) : Prop :=
  ∀ b c, s.get? b = some c → c.links.retainers.Nodup ∧
    ∀ a, a ∈ c.links.retainers ↔ a ≠ b ∧ ∃ d, s.get? a = some d ∧ b ∈ d.references

/-- A store that a session may start from: symmetric, with nothing dying in it, and no handle stands
    in it that it has yet to hand out. -/
structure IsSeed (s : Store) : Prop where
  symmetric : s.Symmetric
  lively : ∀ b c, s.get? b = some c → c.isAlive = true
  bounded : ∀ b c, s.get? b = some c → ∀ h ∈ c.named, h.index < s.size

/-- What holds of all composites can be checked on the list of them. -/
theorem forall_get?_iff {p : Handle → Composite → Prop} :
    (∀ b c, s.get? b = some c → p b c) ↔ ∀ e ∈ s.live, p e.1 e.2 :=
  ⟨fun h e he => h e.1 e.2 (mem_live.mp he), fun h b c hc => h (b, c) (mem_live.mpr hc)⟩

theorem exists_get?_iff {a b : Handle} :
    (∃ d, s.get? a = some d ∧ b ∈ d.references) ↔ b ∈ s.references a := by
  constructor
  · rintro ⟨d, hd, hb⟩
    rwa [references_of_get? hd]
  · intro hb
    obtain ⟨d, hd⟩ := contains_iff.mp (contains_of_mem_references hb)
    exact ⟨d, hd, by rwa [← references_of_get? hd]⟩

/-- Whether the list of a composite is as it should be. -/
def listsLinked (s : Store) (b : Handle) (c : Composite) : Bool :=
  decide c.links.retainers.Nodup &&
    c.links.retainers.all (fun a => a != b && (s.references a).contains b) &&
    s.live.all fun e => e.1 == b || !e.2.references.contains b || c.links.retainers.contains e.1

theorem listsLinked_iff {b : Handle} {c : Composite} :
    s.listsLinked b c = true ↔ c.links.retainers.Nodup ∧
      ∀ a, a ∈ c.links.retainers ↔ a ≠ b ∧ ∃ d, s.get? a = some d ∧ b ∈ d.references := by
  simp only [listsLinked, Bool.and_eq_true, decide_eq_true_eq, List.all_eq_true, and_assoc]
  refine and_congr_right fun _ => ?_
  constructor
  · rintro ⟨hlisted, hall⟩ a
    constructor
    · intro ha
      obtain ⟨hne, hb⟩ : a ≠ b ∧ b ∈ s.references a := by simpa using hlisted a ha
      exact ⟨hne, exists_get?_iff.mpr hb⟩
    · rintro ⟨hne, d, hd, hb⟩
      simpa [hne, hb] using hall (a, d) (mem_live.mpr hd)
  · intro h
    constructor
    · intro a ha
      obtain ⟨hne, hd⟩ := (h a).mp ha
      simpa [hne] using exists_get?_iff.mp hd
    · rintro ⟨a, d⟩ hd
      by_cases hab : a = b
      · simp [hab]
      · by_cases hb : b ∈ d.references
        · simpa [hab, hb] using (h a).mpr ⟨hab, d, mem_live.mp hd, hb⟩
        · simp [hb]

theorem symmetric_iff : s.Symmetric ↔ ∀ e ∈ s.live, s.listsLinked e.1 e.2 = true := by
  rw [← forall_get?_iff (p := fun b c => s.listsLinked b c = true)]
  simp only [Symmetric, listsLinked_iff]

instance : Decidable s.Symmetric := decidable_of_iff _ symmetric_iff.symm

instance : Decidable s.IsSeed :=
  decidable_of_iff (s.Symmetric ∧ (∀ e ∈ s.live, e.2.isAlive = true) ∧
      ∀ e ∈ s.live, ∀ h ∈ e.2.named, h.index < s.size)
    ⟨fun h => ⟨h.1, forall_get?_iff.mpr h.2.1, forall_get?_iff.mpr h.2.2⟩,
      fun h => ⟨h.symmetric, forall_get?_iff.mp h.lively, forall_get?_iff.mp h.bounded⟩⟩

/-- Symmetry leaves no edge missing or extra. -/
theorem Symmetric.paired (h : s.Symmetric) : s.Paired noEdges noEdges where
  listed a b ha hr hb hne := by
    obtain ⟨c, hc⟩ := contains_iff.mp hb
    rw [retainers_of_get? hc]
    exact Or.inl (((h b c hc).2 a).mpr ⟨hne, exists_get?_iff.mpr hr⟩)
  linked a b ha := by
    obtain ⟨c, hc⟩ := contains_iff.mp (contains_of_mem_retainers ha)
    rw [retainers_of_get? hc] at ha
    obtain ⟨hne, d, hd, hb⟩ := ((h b c hc).2 a).mp ha
    exact ⟨hne, contains_of_get? hd, fun _ => Or.inl (by rwa [references_of_get? hd])⟩
  nodup b := by
    by_cases hb : s.contains b = true
    · obtain ⟨c, hc⟩ := contains_iff.mp hb
      rw [retainers_of_get? hc]
      exact (h b c hc).1
    · rw [retainers_eq_nil hb]
      exact List.nodup_nil

theorem IsSeed.balanced (h : s.IsSeed) : s.Balanced noEdges noEdges where
  toPaired := h.symmetric.paired
  bounded a c hc k hk := by
    obtain ⟨d, hd, rfl⟩ := Option.map_eq_some_iff.mp hc
    exact h.bounded a d hd k hk

theorem IsSeed.isDying (h : s.IsSeed) (b : Handle) : s.isDying b = false := by
  cases hd : s.isDying b with
  | false => rfl
  | true =>
    obtain ⟨c, hc, hdead⟩ := isDying_iff.mp hd
    rw [h.lively b c hc] at hdead
    cases hdead

theorem Balanced.isSeed (h : s.Balanced noEdges noEdges) (hlively : ∀ b, s.isDying b = false) :
    s.IsSeed := by
  have halive : ∀ b c, s.get? b = some c → c.isAlive = true := by
    intro b c hc
    cases hc' : c.isAlive with
    | true => rfl
    | false =>
      have hd := isDying_iff.mpr ⟨c, hc, hc'⟩
      rw [hlively b] at hd
      cases hd
  refine ⟨fun b c hc => ⟨?_, fun a => ?_⟩, halive, fun b c hc k hk =>
    h.bounded b c.bare (bare?_of_get? hc) k hk⟩
  · rw [← retainers_of_get? hc]
    exact h.nodup b
  · rw [← retainers_of_get? hc, exists_get?_iff]
    constructor
    · intro ha
      obtain ⟨hne, hthere, hl⟩ := h.linked a b ha
      obtain ⟨d, hd⟩ := contains_iff.mp hthere
      exact ⟨hne, (hl (isAlive_iff.mpr ⟨d, hd, halive a d hd⟩)).resolve_right id⟩
    · rintro ⟨hne, hb⟩
      obtain ⟨d, hd⟩ := contains_iff.mp (contains_of_mem_references hb)
      have ha := isAlive_iff.mpr ⟨d, hd, halive a d hd⟩
      exact (h.listed a b ha hb (contains_of_get? hc) hne).resolve_right id

end Store

/-! ## Requests -/

/-- What can be asked of a machine. -/
inductive Request where
  | createComposite (title : Option String) (type : TypeTree) (scope : Option Handle)
  | createSelfLeveled (title : Option String) (kind : Kind) (scope : Option Handle)
  | createFunction (title : Option String) (statements : Statements) (scope : Option Handle)
  | createNamespace (title : Option String) (scope : Option Handle) (levels : Levels)
  | createObject (above : Option Handle) (classHandle : Handle) (below : Option Handle)
  | setSuperLevels (handle : Handle) (above : Option Handle)
  | setSelfLevels (handle level : Handle)
  | setSubLevels (object : Handle) (below : Option Handle)
  | setInheritedLevels (handle source : Handle)
  | setSlot (handle : Handle) (slot : Slot) (value : Option Handle)
  | mutate (mutation : Mutation)
  | destroyIfReleased (handle : Handle)
  | pushScope (scope : Scope)
  | popScope (collect : Bool)
  | runModule (tree : Node)

namespace Request

/-- Carries a request out. -/
def run (r : Rules) : Request → Run Unit
  | .createComposite title type scope => do let _ ← Run.createComposite r title type scope
  | .createSelfLeveled title kind scope => do let _ ← Run.createSelfLeveled r title kind scope
  | .createFunction title statements scope => do let _ ← Run.createFunction r title statements scope
  | .createNamespace title scope levels => do let _ ← Run.createNamespace r title scope levels
  | .createObject above classHandle below => do let _ ← Run.createObject r above classHandle below
  | .setSuperLevels handle above => Run.setSuperLevels r handle above
  | .setSelfLevels handle level => Run.setSelfLevels r handle level
  | .setSubLevels object below => Run.setSubLevels r object below
  | .setInheritedLevels handle source => Run.setInheritedLevels r handle source
  | .setSlot handle slot value => Run.setSlot r handle slot value
  | .mutate mutation => mutation.run r
  | .destroyIfReleased handle => Run.destroyIfReleased r handle
  | .pushScope scope => Run.pushScope scope
  | .popScope collect => Run.popScope r collect
  | .runModule tree => Run.runModule r tree

/-- The handles that a request may store. -/
def stored : Request → List Handle
  | .createComposite _ type scope => type.references ++ scope.toList
  | .createSelfLeveled _ _ scope => scope.toList
  | .createFunction _ _ scope => scope.toList
  | .createNamespace _ scope _ => scope.toList
  | .createObject above classHandle below => classHandle :: above.toList ++ below.toList
  | .setSuperLevels _ above => above.toList
  | .setSelfLevels _ level => [level]
  | .setSubLevels _ below => below.toList
  | .setSlot _ _ value => value.toList
  | .mutate mutation => mutation.stored
  | _ => []

end Request

/-- Carries requests out one after the other.  A request may store only handles that the store has
    handed out; which composites it is about is left open. -/
def session (r : Rules) : List Request → Machine → Option Machine
  | [], machine => some machine
  | request :: rest, machine =>
    if request.stored.all fun handle => handle.index < machine.store.size then
      match request.run r machine with
      | .ok (_, machine) => session r rest machine
      | .error _ => none
    else none

/-! ## Sessions -/

section Sessions

variable {r r' : Rules} {missing extra : Store.Edges} {m : Machine}

/-! ### Levels of any composite -/

section Levels

variable (hc : ∀ missing, Collects missing r r')

include hc

theorem setSlots_keeps (x : Handle) (slot slot' : Slot) {value value' : Option Handle}
    (hv : (balance missing extra).Knows m.store value)
    (hv' : (balance missing extra).Knows m.store value') :
    (balance missing extra).Keeps m (do setSlot r x slot value; setSlot r x slot' value')
      (do setSlot r' x slot value; setSlot r' x slot' value') :=
  (setSlot_keeps (hc _) x slot (hc _) hv).bind fun _ _ h =>
    setSlot_keeps (hc _) x slot' (hc _) (hv'.mono h.leads)

omit hc in
theorem knows_selfType? (hm : (balance missing extra).Fits m) (x : Handle) :
    (balance missing extra).Knows m.store (m.store.selfType? x) :=
  knows_option.mpr fun _ hy => knows_handle.mpr (index_lt_of_selfType? hm.holds hy)

theorem setSuperLevels_keeps (x : Handle) {above : Option Handle}
    (habove : (balance missing extra).Knows m.store above) :
    (balance missing extra).Keeps m (setSuperLevels r x above) (setSuperLevels r' x above) :=
  Keeps.assuming fun hm => Keeps.store_bind (setSlots_keeps hc x _ _ habove
    (Knows.bind fun y _ => knows_selfType? hm y))

theorem setSelfLevels_keeps (x : Handle) {level : Handle} (hlevel : level.index < m.store.size) :
    (balance missing extra).Keeps m (setSelfLevels r x level) (setSelfLevels r' x level) :=
  Keeps.assuming fun hm => Keeps.store_bind (setSlots_keeps hc x _ _
    (knows_some.mpr (knows_handle.mpr hlevel)) (knows_selfType? hm level))

theorem setSubLevels_keeps (object : Handle) {below : Option Handle}
    (hbelow : (balance missing extra).Knows m.store below) :
    (balance missing extra).Keeps m (setSubLevels r object below)
    (setSubLevels r' object below) := by
  refine Keeps.assuming fun hm => Keeps.store_bind ?_
  cases below with
  | none => exact Keeps.pure knows_unit
  | some below =>
    dsimp only
    split
    · refine setSlots_keeps hc object _ _ hbelow (Knows.bind fun c hget => ?_)
      exact (knows_typeOf (D := balance missing extra) hm.holds hget).inherited?
    · exact Keeps.pure knows_unit

theorem setInheritedLevels_keeps (x source : Handle) :
    (balance missing extra).Keeps m (setInheritedLevels r x source)
    (setInheritedLevels r' x source) := by
  unfold setInheritedLevels
  split
  · refine Keeps.forM fun slot _ m' _ => Keeps.assuming fun hm => Keeps.store_bind ?_
    exact setSlot_keeps (hc _) x slot (hc _)
      (knows_link? (D := balance missing extra) hm.holds slot source)
  · exact Keeps.pure knows_unit

end Levels

/-- Whatever is asked of a machine, the balance is kept and nothing is left dying. -/
theorem request_agrees (hc : ∀ missing, Collects missing r r)
    (ho : (balance noEdges noEdges).Obeys r r)
    (request : Request) (hstored : ∀ y ∈ request.stored, y.index < m.store.size)
    (hm : (balance noEdges noEdges).Fits m) :
    Agree False m (request.run r) (request.run r) fun _ m' =>
      (balance noEdges noEdges).Fits m' ∧ m.store.Follows m'.store := by
  have hkeeps : ∀ {x : Run Unit}, (balance noEdges noEdges).Keeps m x x →
    Agree False m x x fun _ m' =>
      (balance noEdges noEdges).Fits m' ∧ m.store.Follows m'.store :=
    fun hx => (hx hm).mono fun _ _ h => ⟨h.fits hm, h.leads⟩
  have hmade : ∀ {x : Run Handle}, (balance noEdges noEdges).Keeps m x x →
      Agree False m (do let _ ← x) (do let _ ← x) fun _ m' =>
        (balance noEdges noEdges).Fits m' ∧ m.store.Follows m'.store :=
    fun hx => hkeeps (hx.bind fun _ _ _ => Keeps.pure knows_unit)
  have hoption : ∀ {o : Option Handle}, (∀ y ∈ o.toList, y ∈ request.stored) →
      (balance noEdges noEdges).Knows m.store o :=
    fun h => knows_option.mpr fun y hy =>
      knows_handle.mpr (hstored y (h y (Option.mem_toList.mpr hy)))
  cases request with
  | createComposite title type scope =>
    refine hmade
      (createComposite_keeps (hoption fun y hy => List.mem_append_right _ hy) title fun y hy => ?_)
    exact hstored y (List.mem_append_left _ hy)
  | createSelfLeveled title kind scope =>
      exact hmade (createSelfLeveled_keeps (hoption fun _ => id) title kind)
  | createFunction title statements scope =>
    exact hmade (createFunction_keeps (hoption fun _ => id) title statements)
  | createNamespace title scope levels =>
      exact hmade (createNamespace_keeps (hoption fun _ => id) title levels)
  | createObject above classHandle below =>
    refine hmade (createObject_keeps (hoption fun y hy => ?_) (hstored _ List.mem_cons_self)
      (hoption fun y hy => ?_))
    · exact List.mem_append_left _ (List.mem_cons_of_mem _ hy)
    · exact List.mem_append_right _ hy
  | setSuperLevels handle above =>
      exact hkeeps (setSuperLevels_keeps hc handle (hoption fun _ => id))
  | setSelfLevels handle level =>
      exact hkeeps (setSelfLevels_keeps hc handle (hstored _ List.mem_cons_self))
  | setSubLevels object below => exact hkeeps (setSubLevels_keeps hc object (hoption fun _ => id))
  | setInheritedLevels handle source => exact hkeeps (setInheritedLevels_keeps hc handle source)
  | setSlot handle slot value =>
      exact hkeeps (setSlot_keeps (hc _) handle slot (hc _) (hoption fun _ => id))
  | mutate mutation => exact hkeeps (mutation_keeps (hc _) mutation hstored)
  | destroyIfReleased handle => exact hkeeps (hc _ _ handle)
  | pushScope scope => exact Agree.of_eq rfl ⟨⟨hm.holds, hm.frames, trivial⟩, .refl _⟩
  | popScope collect =>
    exact (popScope_agrees (admits_balance (hc _)) collect hm).mono fun _ _ h => ⟨h.fits, h.leads⟩
  | runModule tree => exact hkeeps (runModule_keeps (admits_balance (hc _)) ho tree)

/-- A session leaves a store that another session may start from. -/
theorem isSeed_of_session {depth : Nat} {requests : List Request} {machine : Machine}
    (hm : (balance noEdges noEdges).Fits m) (hlively : ∀ h, m.store.isDying h = false)
    (h : session (rules depth) requests m = some machine) : machine.store.IsSeed := by
  obtain ⟨hc, ho⟩ := rules_keep_balance depth
  induction requests generalizing m with
  | nil =>
    cases h
    exact Store.Balanced.isSeed hm.holds hlively
  | cons request rest ih =>
    rw [session] at h
    split at h
    · rename_i hstored
      split at h
      · rename_i u m₁ hrun
        have hstep := request_agrees hc (ho _ _) request (by simpa using hstored) hm
        obtain ⟨hm₁, hfollows⟩ := hstep.post hrun
        exact ih hm₁ (fun k => (hfollows.dying k).trans (hlively k)) h
      · cases h
    · cases h

end Sessions

/-- The machine that has done nothing starts from a seed. -/
theorem Store.isSeed_empty : Store.empty.IsSeed := by decide

/-- A machine that is given a seed, and in which nothing runs yet, is in balance. -/
theorem Store.IsSeed.fits {seed : Store} (hseed : seed.IsSeed) (preferences : Preferences)
    (tokens : Array Token) :
    (balance noEdges noEdges).Fits { Machine.withStore seed preferences with tokens } :=
  ⟨hseed.balanced, fun _ ht => absurd ht List.not_mem_nil, trivial⟩

/-- From a machine that has done nothing, or one with a seed for a store, every session that comes
    to its end leaves each composite with a list of retainers that holds exactly the other
    composites linked to it, each once; nothing that was freed stands in such a list. -/
theorem session_keeps_symmetry {seed : Store} (hseed : seed = .empty ∨ seed.IsSeed)
    (preferences : Preferences)
    (tokens : Array Token) (depth : Nat) (requests : List Request) {machine : Machine}
    (h : session (rules depth) requests { Machine.withStore seed preferences with tokens } =
      some machine) :
    machine.store.Symmetric ∧ ∀ b c, machine.store.get? b = some c →
      ∀ a ∈ c.links.retainers, machine.store.contains a = true := by
  have hseed : seed.IsSeed := hseed.elim (fun h => h ▸ Store.isSeed_empty) id
  have hsymmetric := (isSeed_of_session (hseed.fits preferences tokens) hseed.isDying h).symmetric
  refine ⟨hsymmetric, fun b c hc a ha => ?_⟩
  obtain ⟨_, d, hd, _⟩ := ((hsymmetric b c hc).2 a).mp ha
  exact Store.contains_of_get? hd

/-- Two namespaces that are around each other. -/
def twoNamespaces : Store :=
  let space (title : String) (around : Handle) : Composite :=
    { Composite.fresh (some title) (.ofKind .namespace) with
      links := { scope := some around, retainers := [around] } }
  ⟨#[⟨0, some (space "Global" ⟨1, 0⟩)⟩, ⟨0, some (space "Local" ⟨0, 0⟩)⟩]⟩

/-- A function is made a member and taken out again, which destroys it; then a module runs. -/
def memberComesAndGoes : List Request :=
  [.createFunction (some "f") (.block []) (some ⟨1, 0⟩),
    .mutate (.setMember ⟨0, 0⟩ "f"
      { type := .ofKind .function, value := some (.reference ⟨2, 0⟩) } .first),
    .mutate (.removeMember ⟨0, 0⟩ "f"),
    .runModule (.bare (.module []))]

/-- Of the six composites that there were, the function is gone. -/
theorem session_keeps_symmetry_after_destroying :
    twoNamespaces.IsSeed ∧ ∃ machine,
      session (rules 12) memberComesAndGoes (Machine.withStore twoNamespaces {}) = some machine ∧
        (machine.store.liveCount, machine.store.size) = (5, 6) ∧ machine.store.Symmetric := by
  have hseed : twoNamespaces.IsSeed := by decide
  have hrun : (session (rules 12) memberComesAndGoes (Machine.withStore twoNamespaces {})).map
      (fun machine => (machine.store.liveCount, machine.store.size)) =
      some (5, 6) := by decide +kernel
  obtain ⟨machine, h, hcount⟩ := Option.map_eq_some_iff.mp hrun
  exact ⟨hseed, machine, h, hcount,
    (session_keeps_symmetry (Or.inr hseed) {} #[] 12 memberComesAndGoes h).1⟩

end CompositeGraph
