/-
  REMOVAL: how a collection comes to its end, and exactly what it takes away.

  As long as no deinitializer is run, looking at a composite that is not kept takes away what falls
  with it and nothing else, at a depth of the rules that is no more than the
  number of composites that live.

    1. ENDS.       Runs that come to a result.
    2. UNNAMED.    Where no member is called `deinit`, no deinitializer is found.
    3. SPARING.    What may be left of a store if some composites are spared, and machines in which
                   no other object has a deinitializer then.
    4. FELLED.     A machine that has lost composites and entries of lists, and nothing else.
    5. RELEASING.  One entry, and a list of entries.
    6. FELLING.    By induction on the depth, from one destruction to the next.
-/
import CompositeGraph.Proofs.Dependents
import CompositeGraph.Proofs.Safety

namespace CompositeGraph

open Run Store

/-! ## Ends -/

/-- From `m` on, a run comes to a result, and `Q` holds of it. -/
def Ends {α : Type} (m : Machine) (x : Run α) (Q : α → Machine → Prop) : Prop :=
  ∃ a m', x m = .ok (a, m') ∧ Q a m'

namespace Ends

variable {α β : Type} {m : Machine} {x : Run α} {Q : α → Machine → Prop} {R : β → Machine → Prop}

theorem pure {a : α} (h : Q a m) : Ends m (Pure.pure a) Q := ⟨a, m, rfl, h⟩

theorem bind {f : α → Run β} (hx : Ends m x Q) (hf : ∀ a m', Q a m' → Ends m' (f a) R) :
    Ends m (x >>= f) R := by
  obtain ⟨a, m₁, hrun, hQ⟩ := hx
  obtain ⟨b, m₂, hrun', hR⟩ := hf a m₁ hQ
  have hxf : (x >>= f) m = (x m).bind fun p => f p.1 p.2 := rfl
  exact ⟨b, m₂, by rw [hxf, hrun]; exact hrun', hR⟩

theorem mono {Q' : α → Machine → Prop} (hx : Ends m x Q) (h : ∀ a m', Q a m' → Q' a m') :
    Ends m x Q' := by
  obtain ⟨a, m', hrun, hQ⟩ := hx
  exact ⟨a, m', hrun, h a m' hQ⟩

theorem get_bind {f : Machine → Run β} (h : Ends m (f m) R) : Ends m (get >>= f) R := h

theorem store_bind {f : Store → Run β} (h : Ends m (f m.store) R) : Ends m (Run.store >>= f) R := h

theorem modifyStore_bind {change : Store → Store} {f : Unit → Run β}
    (h : Ends { m with store := change m.store } (f ()) R) :
      Ends m (Run.modifyStore change >>= f) R := h

end Ends

/-! ## Unnamed -/

namespace Lookup

variable {lookup : Lookup} {identifier : String}

/-- Nothing in the store has a member or an import of a name, and the name means
    nothing by itself. -/
structure Unnamed (lookup : Lookup) (identifier : String) : Prop where
  plain : identifier ≠ "Global" ∧ Slot.ofIdentifier identifier = none
  members : ∀ h c, lookup.store.get? h = some c → c.members.get? identifier = none
  imports : ∀ h c, lookup.store.get? h = some c → c.imports.get? identifier = none

/-- Asked for such a name, a composite passes the question on to its imports at most. -/
theorem Unnamed.memberAmong (hu : lookup.Unnamed identifier) (matching : Matching) (steps : Nat)
    (visited pending : List Handle) :
      lookup.memberAmong identifier matching steps visited pending = none := by
  have hnone : lookup.select [] matching = none := by cases matching <;> rfl
  have hanswer : ∀ h c, lookup.store.get? h = some c →
      lookup.answer h c identifier matching =
        if c.is .namespace then .ask c.imports.values else .closed := by
    intro h c hc
    have hpseudo : lookup.pseudo c identifier = none := by
      simp [pseudo, hu.plain.1, hu.plain.2]
    simp only [answer, hu.members h c hc, Option.getD_none, hnone, hpseudo, hu.imports h c hc]
  induction steps generalizing visited pending with
  | zero => rfl
  | succ steps ih =>
    rw [Lookup.memberAmong]
    split
    · rfl
    · rename_i h rest _
      cases hc : lookup.store.get? h with
      | none => rfl
      | some c =>
        dsimp only
        rw [hanswer h c hc]
        split
        · rename_i hfound
          split at hfound <;> cases hfound
        · exact ih _ _
        · exact ih _ _

theorem Unnamed.firstOn (hu : lookup.Unnamed identifier) (matching : Matching)
    (trail : List (Handle × Composite)) : lookup.firstOn trail identifier matching = none := by
  refine List.findSome?_eq_none_iff.mpr ?_
  rintro ⟨level, _⟩ _
  simp [member?, hu.memberAmong]

/-- So it is not found anywhere. -/
theorem Unnamed.find? (hu : lookup.Unnamed identifier) (start : Handle) (matching : Matching)
    (internal : Bool) : lookup.find? start identifier matching internal = none := by
  refine List.findSome?_eq_none_iff.mpr fun e _ => ?_
  simp [onLevel, onObjects, onTypes, member?, hu.memberAmong, hu.firstOn]

end Lookup

/-- Taking composites away names nothing. -/
theorem Lookup.Unnamed.of_kernel {m : Machine} {T t : Store} {identifier : String}
    (hu : ({ m with store := T } : Machine).lookup.Unnamed identifier)
    (hkernel : ∀ h c, t.get? h = some c → ∃ d, T.get? h = some d ∧ c.kernel = d.kernel) :
    ({ m with store := t } : Machine).lookup.Unnamed identifier := by
  refine ⟨hu.plain, fun h c hc => ?_, fun h c hc => ?_⟩
  · obtain ⟨d, hd, hk⟩ := hkernel h c hc
    rw [Composite.view_of_kernel hk Composite.members fun _ => rfl]
    exact hu.members h d hd
  · obtain ⟨d, hd, hk⟩ := hkernel h c hc
    rw [Composite.view_of_kernel hk Composite.imports fun _ => rfl]
    exact hu.imports h d hd

/-! ## Sparing -/

/-- The function that would be run before an object is freed. -/
def Machine.deinitializer? (m : Machine) (object : Handle) : Option Handle :=
  (m.lookup.find? object "deinit" (.call []) true).bind (·.matching)

/-- Whatever composites out of reach are taken away from a store, no object out of reach has a
    deinitializer. -/
def Machine.Inert (m : Machine) (T : Store) : Prop :=
  ∀ t, T.Remnant m.roots t → ∀ h, ¬T.Reachable m.roots h → t.isKind .object h = true →
    ({ m with store := t } : Machine).deinitializer? h = none

/-- Where nothing is named `deinit`, nothing has a deinitializer, whatever is taken away. -/
theorem Machine.inert_of_unnamed {m : Machine} {T : Store}
    (hu : ({ m with store := T } : Machine).lookup.Unnamed "deinit") : m.Inert T := by
  intro t ht h _ _
  rw [Machine.deinitializer?, (hu.of_kernel ht.kernel).find?]
  rfl

/-- What may be left of a store: composites that are not spared are taken away, or dying, and the
    lists of retainers are other ones. -/
structure Store.Spares (spared : Handle → Prop) (T s : Store) : Prop where
  size : s.size = T.size
  kernel : ∀ h c, s.get? h = some c → ∃ d, T.get? h = some d ∧ c.kernel = d.kernel
  alive : ∀ h, spared h → T.contains h = true → s.isAlive h = true

/-- Whatever is taken away of what is not spared, no object that is not spared has a
    deinitializer. -/
def Machine.Mute (m : Machine) (spared : Handle → Prop) : Prop :=
  ∀ t, m.store.Spares spared t → ∀ h, ¬spared h → t.isKind .object h = true →
    ({ m with store := t } : Machine).deinitializer? h = none

/-- Sparing what is within reach. -/
theorem Machine.Inert.mute {m : Machine} (h : m.Inert m.store) :
    m.Mute (m.store.Reachable m.roots) :=
  fun t ht => h t ⟨ht.size, ht.kernel, ht.alive⟩

theorem Machine.mute_of_unnamed {m : Machine} {spared : Handle → Prop}
    (hu : m.lookup.Unnamed "deinit") : m.Mute spared := by
  intro t ht h _ _
  rw [Machine.deinitializer?, (hu.of_kernel ht.kernel).find?]
  rfl

/-! ## Felled -/

/-- The composites in `D` and the entries in `E` are gone, and nothing else has changed. -/
structure Machine.Felled (D : Handle → Prop) (E : Store.Edges) (m m' : Machine) : Prop where
  scopes : m'.scopes = m.scopes
  control : m'.control = m.control
  preferences : m'.preferences = m.preferences
  worn : m.store.Worn m'.store
  sheds : m.store.Sheds D E m'.store

namespace Machine.Felled

variable {D D' : Handle → Prop} {E E' : Store.Edges} {m m₁ m₂ : Machine}

theorem refl (m : Machine) : m.Felled Store.nobody noEdges m := ⟨rfl, rfl, rfl, .refl _, .refl _⟩

theorem trans (h : m.Felled D E m₁) (h' : m₁.Felled D' E' m₂) :
    m.Felled (fun h => D h ∨ D' h) (fun a b => E a b ∨ E' a b) m₂ where
  scopes := h'.scopes.trans h.scopes
  control := h'.control.trans h.control
  preferences := h'.preferences.trans h.preferences
  worn := h.worn.trans h'.worn
  sheds := h.sheds.trans h'.sheds

theorem congr (h : m.Felled D E m₁) (hD : ∀ h, D h ↔ D' h)
    (hE : ∀ a b, a ∈ m.store.retainers b → ¬D a → ¬D b → (E a b ↔ E' a b)) : m.Felled D' E' m₁ :=
  { h with sheds := h.sheds.congr hD hE }

/-- What goes on from the same machine and takes away the same leaves the same store. -/
theorem store_eq (h : m.Felled D E m₁) (h' : m.Felled D E m₂) : m₁.store = m₂.store :=
  h.worn.eq h'.worn (fun x => (h.sheds.alive x).trans (h'.sheds.alive x).symm)
    (fun x => (h.sheds.dying x).trans (h'.sheds.dying x).symm)
    fun a b => (h.sheds.listed a b).trans (h'.sheds.listed a b).symm

end Machine.Felled

/-- A machine that `m₀` has become by losing composites that are not spared.  What is spared is
    kept, and what is dying is not. -/
structure Machine.Thinned (m₀ : Machine) (spared : Handle → Prop) (m : Machine) : Prop where
  scopes : m.scopes = m₀.scopes
  control : m.control = m₀.control
  preferences : m.preferences = m₀.preferences
  spares : m₀.store.Spares spared m.store
  holds : ∀ h, spared h → m.store.Kept m₀.roots h
  lost : ∀ d, m.store.isDying d = true → ¬m.store.Kept m₀.roots d

namespace Machine.Thinned

variable {m₀ m m' : Machine} {spared : Handle → Prop} {D : Handle → Prop} {E : Store.Edges}

theorem felled (hm : m₀.Thinned spared m) (h : m.Felled D E m') (hD : ∀ h, spared h → ¬D h)
    (hholds : ∀ h, spared h → m'.store.Kept m₀.roots h) : m₀.Thinned spared m' where
  scopes := h.scopes.trans hm.scopes
  control := h.control.trans hm.control
  preferences := h.preferences.trans hm.preferences
  spares.size := h.worn.size.trans hm.spares.size
  spares.kernel x c hc := by
    obtain ⟨d, hd, hw⟩ := h.worn.get? hc
    obtain ⟨e, he, hk⟩ := hm.spares.kernel x d hd
    exact ⟨e, he, hw.kernel.trans hk⟩
  spares.alive x hx hthere := (h.sheds.alive x).mpr ⟨hm.spares.alive x hx hthere, hD x hx⟩
  holds := hholds
  lost d hd hk := hm.lost d (by rwa [h.sheds.dying] at hd) (h.sheds.kept hk)

section Roots

variable (hroots : ∀ h ∈ m₀.roots, spared h)

include hroots

/-- The outermost namespace is a root, so its slot stays as it is. -/
theorem roots_eq (hm : m₀.Thinned spared m) : m.roots = m₀.roots := by
  have hglobal : m.global? = m₀.global? := by
    refine Option.ext fun h => ?_
    rw [Machine.global?, Machine.global?, handleAt?_eq_some_iff, handleAt?_eq_some_iff]
    constructor
    · rintro ⟨hthere, hi⟩
      obtain ⟨c, hc⟩ := contains_iff.mp hthere
      obtain ⟨d, hd, _⟩ := hm.spares.kernel h c hc
      exact ⟨contains_of_get? hd, hi⟩
    · rintro ⟨hthere, hi⟩
      have hmem : h ∈ m₀.roots := by
        rw [Machine.roots, Machine.global?, handleAt?_eq_some_iff.mpr ⟨hthere, hi⟩]
        simp
      exact ⟨contains_of_isAlive (hm.spares.alive h (hroots h hmem) hthere), hi⟩
  have htop : m.topScope? = m₀.topScope? := by rw [Machine.topScope?, hm.scopes]; rfl
  rw [Machine.roots, hm.control, hglobal, htop]
  rfl

theorem isRetained_iff (hm : m₀.Thinned spared m) {h : Handle} :
    m.isRetained h = true ↔ m.store.Kept m₀.roots h := by
  rw [Machine.isRetained, hm.roots_eq hroots]
  exact reaches_iff

end Roots

end Machine.Thinned

/-! ## Releasing -/

section Releasing

variable {m₀ m m₁ m₂ : Machine} {spared : Handle → Prop} {depth : Nat} {q y : Handle}
  {lists : List Handle}

/-- Deep enough in the rules to end all lives that there are, looking at a composite takes away what
    falls with it. -/
def Fells (m₀ : Machine) (spared : Handle → Prop) (depth : Nat) : Prop :=
  ∀ {m : Machine} {y : Handle}, m₀.Thinned spared m → m.store.living.card < depth →
    Ends m (destroyIfReleased (rules depth) y) fun _ m' =>
      m.Felled (m.store.Falls m₀.roots y) noEdges m'

/-- `q` has been struck off the lists of some, and what falls then is gone. -/
abbrev Machine.Released (roots : List Handle) (q : Handle) (lists : List Handle)
    (m m' : Machine) : Prop :=
  m.Felled (m.store.FallsAll roots q lists) (fun a b => a = q ∧ b ∈ lists) m'

/-- A machine in which `q` is to be struck off the lists of some: what is spared is kept without
    them, and `q` does not fall itself. -/
structure Machine.Releasing (m₀ : Machine) (spared : Handle → Prop) (q : Handle)
    (lists : List Handle) (m : Machine) : Prop extends m₀.Thinned spared m where
  source : spared q ∨ m.store.isAlive q = false
  strict : q ∈ lists → q ∉ m.store.retainers q
  without : ∀ h, spared h → (m.store.struckAll q lists).Kept m₀.roots h

namespace Machine.Releasing

/-- Fewer lists keep more. -/
theorem mono {lists' : List Handle} (hm : m₀.Releasing spared q lists m)
    (hsub : ∀ y ∈ lists', y ∈ lists) : m₀.Releasing spared q lists' m where
  toThinned := hm.toThinned
  source := hm.source
  strict h := hm.strict (hsub q h)
  without h hh := by
    refine (hm.without h hh).mono (fun a b hab => ?_) fun _ => id
    rw [mem_retainers_struckAll] at hab ⊢
    exact ⟨hab.1, fun h => hab.2 ⟨h.1, hsub b h.2⟩⟩

theorem head (hm : m₀.Releasing spared q (y :: lists) m) : m₀.Releasing spared q [y] m :=
  hm.mono fun _ hz => List.mem_cons.mpr (Or.inl (List.mem_singleton.mp hz))

theorem not_fallsAll (hm : m₀.Releasing spared q lists m) {h : Handle} (hh : spared h) :
    ¬m.store.FallsAll m₀.roots q lists h := fun hf => hf.not_kept (hm.without h hh)

theorem source_not_fallsAll (hm : m₀.Releasing spared q lists m) :
    ¬m.store.FallsAll m₀.roots q lists q := by
  intro hf
  rcases hm.source with h | h
  · exact hm.not_fallsAll h hf
  · rw [hf.isAlive] at h
    cases h

/-- One list is done, and the others are left. -/
theorem next (hm : m₀.Releasing spared q (y :: lists) m) (h : m.Released m₀.roots q [y] m₁) :
    m₀.Releasing spared q lists m₁ := by
  have hsheds : m.store.Sheds _ (fun a b => a = q ∧ b = y) m₁.store :=
    h.sheds.congr (fun _ => Iff.rfl) fun a b _ _ _ => by rw [List.mem_singleton]
  have hwithout : ∀ x, spared x → (m₁.store.struckAll q lists).Kept m₀.roots x := by
    intro x hx
    refine (hsheds.struckAll.kept_iff (fun z hf hk => hf.not_kept ?_) fun _ _ =>
      False.elim).mpr (hm.without x hx)
    refine hk.mono (fun a b hab => ?_) fun _ => id
    rw [mem_retainers_struckAll] at hab ⊢
    exact ⟨hab.1, fun h => hab.2 ⟨h.1, List.mem_cons.mpr (Or.inl (List.mem_singleton.mp h.2))⟩⟩
  have hholds : ∀ x, spared x → m₁.store.Kept m₀.roots x :=
    fun x hx => sheds_struckAll.kept (hwithout x hx)
  refine ⟨hm.toThinned.felled h (fun x hx => hm.head.not_fallsAll hx) hholds, ?_, ?_, hwithout⟩
  · refine hm.source.imp_right fun hdead => Bool.eq_false_iff.mpr fun ha => ?_
    rw [((h.sheds.alive q).mp ha).1] at hdead
    cases hdead
  · exact fun hmem hself =>
      hm.strict (List.mem_cons_of_mem _ hmem) ((h.sheds.listed q q).mp hself).1

/-- One list and then the others are all of them. -/
theorem cons (hm : m₀.Releasing spared q (y :: lists) m) (h : m.Released m₀.roots q [y] m₁)
    (h' : m₁.Released m₀.roots q lists m₂) : m.Released m₀.roots q (y :: lists) m₂ := by
  have hsheds : m.store.Sheds _ (fun a b => a = q ∧ b = y) m₁.store :=
    h.sheds.congr (fun _ => Iff.rfl) fun a b _ _ _ => by rw [List.mem_singleton]
  refine (h.trans h').congr (fun x =>
    (fallsAll_cons hm.lost hm.head.source_not_fallsAll hsheds).symm)
    fun a b _ _ _ => ?_
  rw [List.mem_singleton, List.mem_cons]
  tauto

end Machine.Releasing

/-- An entry is struck off if it is there, and what falls then is taken away. -/
theorem release_felled (hfells : Fells m₀ spared depth) (hm : m₀.Releasing spared q [y] m)
    (hcard : m.store.living.card < depth) :
    Ends m (release (rules depth) q y) fun _ m' => m.Released m₀.roots q [y] m' := by
  refine Ends.store_bind ?_
  by_cases hlisted : q ∈ m.store.retainers y
  · have hne : q ≠ y := by
      rintro rfl
      exact hm.strict List.mem_cons_self hlisted
    rw [if_pos (by simp [hne, hlisted])]
    refine Ends.modifyStore_bind ?_
    have hstruck : m.Felled Store.nobody (fun a b => a = q ∧ b = y)
        { m with store := m.store.struck q y } :=
      ⟨rfl, rfl, rfl, .modify fun _ => .strike q, sheds_struck⟩
    have hthinned := hm.toThinned.felled hstruck (fun _ _ => id) hm.without
    refine (hfells hthinned (Nat.lt_of_le_of_lt hstruck.sheds.card_living hcard)).mono ?_
    rintro _ m' hfelled
    refine (hstruck.trans hfelled).congr (fun h => ?_) fun a b _ _ _ => ?_
    · rw [fallsAll_singleton hlisted, false_or]
    · simp [noEdges]
  · -- Where `q` is not listed, nothing is struck off and nothing looked at.
    rw [if_neg (by simp [hlisted])]
    refine Ends.pure ((Machine.Felled.refl m).congr (fun h => ?_) fun a b hab _ _ => ?_)
    · exact ⟨False.elim, fun h => not_fallsAll_singleton hlisted h⟩
    · refine ⟨False.elim, ?_⟩
      rintro ⟨rfl, hb⟩
      exact hlisted (List.mem_singleton.mp hb ▸ hab)

theorem Machine.Released.nil (m : Machine) : m.Released m₀.roots q [] m :=
  (Machine.Felled.refl m).congr (fun _ => by simp [Store.FallsAll])
    fun _ _ _ _ _ => by simp [noEdges]

/-- A composite is struck off one list after the other. -/
theorem forM_release_felled (hfells : Fells m₀ spared depth) (hm : m₀.Releasing spared q lists m)
    (hcard : m.store.living.card < depth) :
    Ends m (lists.forM (release (rules depth) q)) fun _ m' => m.Released m₀.roots q lists m' := by
  induction lists generalizing m with
  | nil => exact Ends.pure (.nil m)
  | cons y lists ih =>
    refine (release_felled hfells hm.head hcard).bind ?_
    rintro _ m₁ h₁
    refine (ih (hm.next h₁) (Nat.lt_of_le_of_lt h₁.sheds.card_living hcard)).mono ?_
    exact fun _ m₂ h₂ => hm.cons h₁ h₂

/-! ## Felling -/

/-- The composites whose lists another one is in. -/
def Store.listedBy (s : Store) (y : Handle) : List Handle :=
  (s.live.filter fun e => e.1 != y && e.2.links.retainers.contains y).map (·.1)

theorem Store.mem_listedBy {s : Store} {y z : Handle} :
    z ∈ s.listedBy y ↔ z ≠ y ∧ y ∈ s.retainers z := by
  simp only [listedBy, List.mem_map, List.mem_filter]
  constructor
  · rintro ⟨⟨k, d⟩, ⟨hlive, hd⟩, rfl⟩
    rw [retainers_of_get? (mem_live.mp hlive)]
    simpa using hd
  · rintro ⟨hne, hz⟩
    obtain ⟨d, hd⟩ := contains_iff.mp (contains_of_mem_retainers hz)
    rw [retainers_of_get? hd] at hz
    exact ⟨(z, d), ⟨mem_live.mpr hd, by simp [hne, hz]⟩, rfl⟩

section Departing

variable (hm : m₀.Thinned spared m) (hy : m.store.isAlive y = true)
  (hlost : ¬m.store.Kept m₀.roots y)

include hm hy hlost

/-- A composite that is not kept may begin to die. -/
theorem Machine.Thinned.dead : m₀.Thinned spared { m with store := m.store.dead y } where
  scopes := hm.scopes
  control := hm.control
  preferences := hm.preferences
  spares.size := (size_modify _ _).trans hm.spares.size
  spares.kernel h d hd := by
    obtain ⟨e, he, hw⟩ := (Worn.modify fun _ => .die).get? hd
    obtain ⟨f, hf, hk⟩ := hm.spares.kernel h e he
    exact ⟨f, hf, hw.kernel.trans hk⟩
  spares.alive h hh hthere :=
    isAlive_dead.mpr ⟨hm.spares.alive h hh hthere, fun heq => hlost (heq ▸ hm.holds h hh)⟩
  holds h hh := kept_dead.mpr (hm.holds h hh)
  lost d hd hk := by
    rcases (isDying_dead (contains_of_isAlive hy)).mp hd with hd | rfl
    · exact hm.lost d hd (kept_dead.mp hk)
    · exact hlost (kept_dead.mp hk)

/-- Then it is struck off all the lists that it is in. -/
theorem Machine.Thinned.departing :
    m₀.Releasing spared y ((m.store.dead y).listedBy y) { m with store := m.store.dead y } := by
  have hthinned := hm.dead hy hlost
  refine ⟨hthinned, Or.inr ?_, fun h => absurd rfl (mem_listedBy.mp h).1, fun h hh => ?_⟩
  · exact Bool.eq_false_iff.mpr fun h => (isAlive_dead.mp h).2 rfl
  · refine (sheds_struckAll.kept_iff (fun _ => False.elim) ?_).mpr (hthinned.holds h hh)
    rintro a b ⟨rfl, _⟩ hk
    exact hlost (kept_dead.mp hk)

/-- And it is freed, when all that falls with it has been. -/
theorem depart_felled (hfells : Fells m₀ spared depth) (hcard : m.store.living.card ≤ depth) :
    Ends { m with store := m.store.dead y } (depart (rules depth) y) fun _ m' =>
      m.Felled (m.store.Falls m₀.roots y) noEdges m' := by
  have hdying : (m.store.dead y).isDying y = true :=
    (isDying_dead (contains_of_isAlive hy)).mpr (Or.inr rfl)
  have hlists : ∀ z, z ∈ (m.store.dead y).listedBy y ↔ z ≠ y ∧ y ∈ m.store.retainers z := by
    intro z
    rw [mem_listedBy, retainers_dead]
  -- One fewer lives from here on, so the depth is enough for what is looked at in turn.
  have hcard' := Nat.lt_of_lt_of_le (card_living_die hy) hcard
  have hloop := forM_release_felled hfells (hm.departing hy hlost) hcard'
  refine Ends.store_bind
    (Ends.bind (by simpa only [Store.listedBy, List.forM_eq_forM, List.forM_map] using hloop) ?_)
  rintro _ m₁ h₁
  have hthere := contains_of_isDying ((h₁.sheds.dying y).trans hdying)
  obtain ⟨reports, hremove⟩ := removeFromStore_eq hthere
  refine ⟨(), _, hremove, h₁.scopes, h₁.control, h₁.preferences, ?_,
    Sheds.free hy hlost hlists h₁.sheds⟩
  exact (Worn.modify fun _ => .die).trans (h₁.worn.trans (.free y))

end Departing

/-- Nothing is run for an object that has no deinitializer. -/
theorem runDeinitializer_of_none {r : Rules} {object : Handle}
    (h : m.deinitializer? object = none) : (runDeinitializer r object) m = .ok ((), m) := by
  have hget : ∀ f : Machine → Run Unit, (get >>= f) m = f m m := fun _ => rfl
  rw [Machine.deinitializer?] at h
  unfold runDeinitializer
  rw [hget, h]
  rfl

/-- A composite that is not kept is destroyed, with all that falls then. -/
theorem destroyNow_felled (hfells : Fells m₀ spared depth) (hmute : m₀.Mute spared)
    (hm : m₀.Thinned spared m) (hcard : m.store.living.card ≤ depth) (hy : m.store.isAlive y = true)
    (hlost : ¬m.store.Kept m₀.roots y) :
    Ends m (destroyNow (rules depth) y) fun _ m' =>
      m.Felled (m.store.Falls m₀.roots y) noEdges m' := by
  obtain ⟨c, hc, halive⟩ := isAlive_iff.mp hy
  have hthinned := hm.dead hy hlost
  have hdepart := depart_felled hm hy hlost hfells hcard
  rw [Ends, destroyNow_of_alive hc halive]
  show Ends { m with store := m.store.dead y } _ _
  split
  · rename_i hobject
    have hkind : (m.store.dead y).isKind .object y = true := by
      rw [Store.isKind, Store.kind?, get?_modify_self _ hc]
      exact hobject
    have hnone := hmute _ hthinned.spares y (fun h => hlost (hm.holds y h)) hkind
    have hlookup : ({ m with store := m.store.dead y } : Machine).deinitializer? y = none := by
      rw [← hnone, Machine.deinitializer?, Machine.deinitializer?, Machine.lookup, Machine.lookup]
      dsimp only
      rw [hm.preferences]
    exact Ends.bind (Q := fun _ m' => m' = { m with store := m.store.dead y })
      ⟨(), _, runDeinitializer_of_none hlookup, rfl⟩ fun _ _ h => h ▸ hdepart
  · exact hdepart

/-- What is kept, or does not live, does not fall, nor does anything with it. -/
theorem felled_of_settled (hy : ¬(m.store.isAlive y = true ∧ ¬m.store.Kept m₀.roots y)) :
    m.Felled (m.store.Falls m₀.roots y) noEdges m :=
  (Machine.Felled.refl m).congr (fun _ => ⟨False.elim, fun hf => hy hf.source⟩)
    fun _ _ _ _ _ => Iff.rfl

/-- At every depth, what falls is taken away. -/
theorem fells_rules (hmute : m₀.Mute spared) (hroots : ∀ h ∈ m₀.roots, spared h) (depth : Nat) :
    Fells m₀ spared depth := by
  induction depth with
  | zero => exact fun _ hcard => absurd hcard (Nat.not_lt_zero _)
  | succ depth ih =>
    intro m y hm hcard
    refine Ends.get_bind ?_
    by_cases hreleased : m.store.contains y = true ∧ ¬m.store.Kept m₀.roots y
    · obtain ⟨hthere, hlost⟩ := hreleased
      have hretained : m.isRetained y = false :=
        Bool.eq_false_iff.mpr fun h => hlost ((hm.isRetained_iff hroots).mp h)
      rw [if_pos (by simp [hthere, hretained])]
      show Ends m (destroyNow (rules depth) y) _
      by_cases hy : m.store.isAlive y = true
      · exact destroyNow_felled ih hmute hm (Nat.le_of_lt_succ hcard) hy hlost
      · exact ⟨(), m, destroyNow_of_not_alive hy, felled_of_settled fun h => hy h.1⟩
    · rw [if_neg ?_]
      · exact Ends.pure (felled_of_settled fun h => hreleased ⟨contains_of_isAlive h.1, h.2⟩)
      · rw [Bool.and_eq_true, Bool.not_eq_true', ← Bool.not_eq_true, hm.isRetained_iff hroots]
        exact hreleased

end Releasing

end CompositeGraph
