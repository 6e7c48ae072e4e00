/-
  RECONCILIATION: the changes of links bring the lists of retainers back into balance.

  Each change sets links first and then settles the edges that differ.  In between, the links that
  are new are missing from the lists and the entries of old ones are extra.  Listing a new one calls
  for nothing; striking an old one off may destroy composites, and then whatever their
  deinitializers do is done while the rest is still to be settled.  So collecting has to keep the
  balance whatever is extra at the time.

    1. CALM.      Runs that change nothing but the store, and call for nothing.
    2. LISTING.   Edges of a living composite whose entries are not extra: settling them is calm.
    3. SETTLING.  `Collects`, and what it gives for one edge, for several, and
                  for a change of links.
    4. CHANGES.   Mutations, members with their owner, and slots.
-/
import CompositeGraph.Proofs.Balance
import CompositeGraph.Proofs.Execution
import CompositeGraph.Proofs.Mutations

namespace CompositeGraph

open Run Discipline Store

/-! ## Calm -/

/-- The runs agree, leave scopes and frames alone, and `Q` holds of the result and the store. -/
def Calm {α : Type} (m : Machine) (x y : Run α) (Q : α → Store → Prop) : Prop :=
  Agree False m x y fun a m' => m'.scopes = m.scopes ∧ m'.control = m.control ∧ Q a m'.store

namespace Calm

variable {α β : Type} {m : Machine} {x y : Run α} {Q : α → Store → Prop} {R : β → Store → Prop}

theorem pure {a : α} (h : Q a m.store) : Calm m (Pure.pure a) (Pure.pure a) Q :=
  Agree.pure ⟨rfl, rfl, h⟩

theorem bind {f g : α → Run β} (hx : Calm m x y Q)
    (hf : ∀ a m', m'.scopes = m.scopes → m'.control = m.control → Q a m'.store →
      Calm m' (f a) (g a) R) :
    Calm m (x >>= f) (y >>= g) R := by
  refine Agree.bind hx ?_
  rintro a m' ⟨hs, hc, hQ⟩
  refine (hf a m' hs hc hQ).mono ?_
  rintro b m'' ⟨hs', hc', hR⟩
  exact ⟨hs'.trans hs, hc'.trans hc, hR⟩

theorem mono {Q' : α → Store → Prop} (hx : Calm m x y Q)
    (h : ∀ a s, Q a s → Q' a s) : Calm m x y Q' :=
  Agree.mono hx fun a m' hQ => ⟨hQ.1, hQ.2.1, h a m'.store hQ.2.2⟩

theorem agrees {P : α → Machine → Prop} (hx : Calm m x y Q)
    (h : ∀ a m', m'.scopes = m.scopes → m'.control = m.control → Q a m'.store → P a m') :
      Agree False m x y P :=
  Agree.mono hx fun a m' hQ => h a m' hQ.1 hQ.2.1 hQ.2.2

theorem get_bind {f g : Machine → Run β} (h : Calm m (f m) (g m) R) :
    Calm m (get >>= f) (get >>= g) R := h

theorem store_bind {f g : Store → Run β} (h : Calm m (f m.store) (g m.store) R) :
    Calm m (Run.store >>= f) (Run.store >>= g) R := h

theorem modifyStore {change : Store → Store} {Q : Unit → Store → Prop} (h : Q () (change m.store)) :
    Calm m (Run.modifyStore change) (Run.modifyStore change) Q := Agree.modifyStore ⟨rfl, rfl, h⟩

theorem modifyStore_bind {change : Store → Store} {f g : Unit → Run β}
    (h : Calm { m with store := change m.store } (f ()) (g ()) R) :
    Calm m (Run.modifyStore change >>= f) (Run.modifyStore change >>= g) R := h

end Calm

namespace Store

/-- Composites were added, and of the others at most those in `X` have changed, but for their lists
    of retainers.  No life ended, and whoever is new in a list is alive. -/
structure Grows (X : Handle → Prop) (s t : Store) : Prop where
  size : s.size ≤ t.size
  others : ∀ h, h.index < s.size → ¬X h → t.bare? h = s.bare? h
  alive : ∀ h, h.index < s.size → t.isAlive h = s.isAlive h
  dying : ∀ h, t.isDying h = s.isDying h
  retained : ∀ d b, d ∈ t.retainers b → d ∈ s.retainers b ∨ t.isAlive d = true

namespace Grows

variable {X Y : Handle → Prop} {s t u : Store}

theorem refl (X : Handle → Prop) (s : Store) : s.Grows X s :=
  ⟨Nat.le_refl _, fun _ _ _ => rfl, fun _ _ => rfl, fun _ => rfl, fun _ _ h => Or.inl h⟩

theorem trans (h : s.Grows X t) (h' : t.Grows Y u) (hY : ∀ k, k.index < s.size → Y k → X k) :
    s.Grows X u where
  size := Nat.le_trans h.size h'.size
  others k hk hX := by
    rw [h'.others k (Nat.lt_of_lt_of_le hk h.size) fun hy => hX (hY k hk hy), h.others k hk hX]
  alive k hk := (h'.alive k (Nat.lt_of_lt_of_le hk h.size)).trans (h.alive k hk)
  dying k := (h'.dying k).trans (h.dying k)
  retained d b hd := by
    rcases h'.retained d b hd with hd | hd
    · rcases h.retained d b hd with hd | hd
      · exact Or.inl hd
      · rw [← h'.alive d (index_lt_size_of_contains (contains_of_isAlive hd))] at hd
        exact Or.inr hd
    · exact Or.inr hd

theorem mono (h : s.Grows X t) (hXY : ∀ k, X k → Y k) : s.Grows Y t :=
  { h with others := fun k hk hY => h.others k hk fun hX => hY (hXY k hX) }

theorem follows (h : s.Grows X t) : s.Follows t where
  size := h.size
  dying := h.dying
  retained d b hd hmem := by
    refine (h.retained d b hmem).resolve_right fun ha => ?_
    have hnot := isDying_eq_false_of_isAlive ha
    rw [h.dying d, hd] at hnot
    exact absurd hnot (by simp)

/-- Nothing but lists of retainers has changed. -/
theorem bare? (h : s.Grows (fun _ => False) t) {k : Handle} (hk : k.index < s.size) :
    t.bare? k = s.bare? k :=
  h.others k hk id

/-- One list of retainers got a living entry. -/
theorem list {a : Handle} (b : Handle) (ha : s.isAlive a = true) :
    s.Grows (fun _ => False) (s.modify b fun c => c.mapRetainers (Paired.adding a)) where
  size := Nat.le_of_eq (size_modify _ _).symm
  others k _ _ := bare?_mapRetainers b k _
  alive k _ := isAlive_of_bare? (bare?_mapRetainers b k _)
  dying k := isDying_of_bare? (bare?_mapRetainers b k _)
  retained d k hd := by
    by_cases hk : k = b
    · rw [hk] at hd ⊢
      have hc := contains_of_mem_retainers hd
      rw [contains_modify] at hc
      rw [retainers_mapRetainers hc] at hd
      refine (Paired.mem_adding.mp hd).imp_right ?_
      rintro rfl
      rw [isAlive_of_bare? (bare?_mapRetainers b d _)]
      exact ha
    · rw [Paired.retainers_mapRetainers_ne _ hk] at hd
      exact Or.inl hd

variable {f : Composite → Composite}

/-- A composite was changed, but neither its life nor its retainers. -/
theorem modify {a : Handle} (hlife : ∀ c, (f c).isAlive = c.isAlive)
    (hretainers : ∀ c, (f c).links.retainers = c.links.retainers) :
      s.Grows (· = a) (s.modify a f) where
  size := Nat.le_of_eq (size_modify _ _).symm
  others _ _ hk := bare?_modify_ne f hk
  alive k _ := isAlive_modify hlife k
  dying := isDying_modify hlife
  retained d b hd := by
    rw [retainers_modify hretainers] at hd
    exact Or.inl hd

end Grows

end Store

/-! ## Listing -/

/-- A machine retains along the links of living composites. -/
theorem Machine.retains_iff {m : Machine} {a b : Handle} :
    m.retains a b = true ↔ m.store.isAlive a = true ∧ b ∈ m.store.references a := by
  unfold Machine.retains Store.isAlive Store.references
  cases m.store.get? a with
  | none => simp
  | some c => simp

/-- Some edges, and those from one composite to several others. -/
def plus (edges : Store.Edges) (a : Handle) (handles : List Handle) : Store.Edges :=
  fun x y => edges x y ∨ (x = a ∧ y ∈ handles)

@[simp] theorem plus_nil (edges : Store.Edges) (a : Handle) : plus edges a [] = edges := by
  funext x y
  simp [plus]

theorem plus_cons {edges : Store.Edges} {a b x y : Handle} {handles : List Handle} :
    plus edges a (b :: handles) x y ↔ plus edges a handles x y ∨ (x = a ∧ y = b) := by
  simp only [plus, List.mem_cons]
  grind

section Listing

variable {r r' : Rules} {missing missing' extra : Store.Edges} {m : Machine} {x y : Handle}

/-- Settling an edge that is there, or that is in no list, calls for nothing. -/
theorem retainOrRelease_calm (hb : m.store.Balanced missing' extra) (hx : m.store.isAlive x = true)
    (hy : y ∈ m.store.references x ∨ ¬extra x y)
    (hm : ∀ a b, missing' a b → missing a b ∨ (a = x ∧ b = y)) :
    Calm m (retainOrRelease r x y) (retainOrRelease r' x y) fun _ s =>
      s.Balanced missing extra ∧ m.store.Grows (fun _ => False) s ∧ s.size = m.store.size := by
  refine Calm.get_bind ?_
  by_cases hr : m.retains x y = true
  · obtain ⟨_, hlink⟩ := Machine.retains_iff.mp hr
    rw [if_pos hr, if_pos hr]
    unfold retain
    by_cases hxy : x = y
    · rw [if_pos hxy]
      refine Calm.pure ⟨hb.strengthen ?_ fun _ _ h _ _ _ => h, .refl _ _, rfl⟩
      intro a b hmiss _ hne
      refine Or.inl ((hm a b hmiss).resolve_right ?_)
      rintro ⟨rfl, rfl⟩
      exact hne hxy
    · rw [if_neg hxy]
      exact Calm.modifyStore ⟨hb.list hxy hx hlink hm fun _ _ => Or.inl,
        .list y hx, size_modify _ _⟩
  · have hlink : y ∉ m.store.references x := fun h => hr (Machine.retains_iff.mpr ⟨hx, h⟩)
    have hlisted : x ∉ m.store.retainers y := by
      intro h
      rcases (hb.linked x y h).2.2 hx with h | h
      · exact hlink h
      · exact (hy.resolve_left hlink) h
    rw [if_neg hr, if_neg hr]
    refine Calm.store_bind ?_
    rw [if_neg (by simp [hlisted]), if_neg (by simp [hlisted])]
    refine Calm.pure ⟨hb.strengthen ?_ fun _ _ h _ _ _ => h, .refl _ _, rfl⟩
    intro a b hmiss _ _
    refine (hm a b hmiss).imp_right ?_
    rintro ⟨rfl, rfl⟩
    exact hlink

/-- The same for several edges of one composite. -/
theorem forM_retainOrRelease_calm {l : List Handle} (hb : m.store.Balanced (plus missing x l) extra)
    (hx : m.store.isAlive x = true) (hl : ∀ y ∈ l, y ∈ m.store.references x ∨ ¬extra x y) :
    Calm m (l.forM (retainOrRelease r x)) (l.forM (retainOrRelease r' x)) fun _ s =>
      s.Balanced missing extra ∧ m.store.Grows (fun _ => False) s ∧ s.size = m.store.size := by
  induction l generalizing m with
  | nil =>
    rw [plus_nil] at hb
    exact Calm.pure ⟨hb, .refl _ _, rfl⟩
  | cons y l ih =>
    refine Calm.bind (Q := fun _ s =>
      s.Balanced (plus missing x l) extra ∧ m.store.Grows (fun _ => False) s ∧
        s.size = m.store.size)
      (retainOrRelease_calm hb hx (hl y List.mem_cons_self) fun _ _ => plus_cons.mp) ?_
    rintro _ m₁ _ _ ⟨hb₁, hg, hsize₁⟩
    have hxs := index_lt_size_of_contains (contains_of_isAlive hx)
    refine (ih hb₁ (by rw [hg.alive x hxs]; exact hx) ?_).mono ?_
    · intro z hz
      rw [references_of_bare? (hg.bare? hxs)]
      exact hl z (List.mem_cons_of_mem _ hz)
    · rintro _ s ⟨hb₂, hg₂, hsize₂⟩
      exact ⟨hb₂, hg.trans hg₂ fun _ _ h => h, hsize₂.trans hsize₁⟩

end Listing

/-! ## Settling -/

/-- Looking again at a composite keeps the balance, whatever is extra at the time. -/
def Collects (missing : Store.Edges) (r r' : Rules) : Prop :=
  ∀ extra {m} h, (balance missing extra).Keeps m (destroyIfReleased r h) (destroyIfReleased r' h)

section Settling

variable {r r' : Rules} {missing missing' extra extra' : Store.Edges} {m : Machine} {x y : Handle}

/-- An entry whose link is gone is struck off, and what it was about is looked at again.  The entry
    of a dying composite does not come back. -/
theorem release_agrees (hc : Collects missing r r') (hm : (balance missing' extra').Fits m)
    (hgone : ¬(m.store.isAlive x = true ∧ y ∈ m.store.references x))
    (hmiss : ∀ a b, missing' a b → missing a b ∨ (a = x ∧ b = y))
    (hext : ∀ a b, extra' a b → extra a b ∨ (a = x ∧ b = y)) :
    Agree False m (release r x y) (release r' x y) fun u m' =>
      (balance missing extra).After m u m' ∧
        (m.store.isDying x = true → x ∉ m'.store.retainers y) := by
  have hb : m.store.Balanced missing' extra' := hm.holds
  refine Agree.store_bind ?_
  by_cases hlisted : x ≠ y ∧ x ∈ m.store.retainers y
  · have hif : (decide (x ≠ y) && (m.store.retainers y).contains x) = true := by simpa using hlisted
    rw [if_pos hif, if_pos hif]
    refine Agree.modifyStore_bind ?_
    have hfollows := Follows.strike (s := m.store) x y
    have hfits : (balance missing extra).Fits { m with store := _ } :=
      hm.rebalance (hb.strike hgone hmiss hext) hfollows.size rfl
    refine (hc extra y hfits).mono fun _ m' h => ⟨h.after_change hfollows, fun hd hmem => ?_⟩
    have hstruck := h.leads.retained x y ((hfollows.dying x).trans hd) hmem
    exact (Paired.mem_retainers_strike.mp hstruck).2 ⟨rfl, rfl⟩
  · have hif : ¬(decide (x ≠ y) && (m.store.retainers y).contains x) =
      true := by simpa using hlisted
    rw [if_neg hif, if_neg hif]
    have hb' : m.store.Balanced missing extra := by
      refine hb.strengthen ?_ ?_
      · intro a b h ha _
        refine (hmiss a b h).imp_right ?_
        rintro ⟨rfl, rfl⟩ hlink
        exact hgone ⟨ha, hlink⟩
      · intro a b h _ hmem hne
        refine (hext a b h).resolve_right ?_
        rintro ⟨rfl, rfl⟩
        exact hlisted ⟨hne, hmem⟩
    refine Agree.pure ⟨.refl (hm.rebalance hb' (Nat.le_refl _) rfl) knows_unit, fun _ hmem => ?_⟩
    exact hlisted ⟨(hb.linked x y hmem).1, hmem⟩

/-- Settling one edge. -/
theorem retainOrRelease_agrees (hc : Collects missing r r') (hm : (balance missing' extra').Fits m)
    (hmiss : ∀ a b, missing' a b → missing a b ∨ (a = x ∧ b = y))
    (hext : ∀ a b, extra' a b → extra a b ∨ (a = x ∧ b = y)) :
    Agree False m (retainOrRelease r x y) (retainOrRelease r' x y)
      ((balance missing extra).After m) := by
  by_cases hr : m.retains x y = true
  · obtain ⟨hx, hlink⟩ := Machine.retains_iff.mp hr
    -- With the link there, the entry is not extra, whatever is said of it.
    have hb : m.store.Balanced missing' extra := by
      have hb : m.store.Balanced missing' extra' := hm.holds
      refine ⟨⟨hb.listed, fun a b h => ?_, hb.nodup⟩, hb.bounded⟩
      obtain ⟨hne, hcon, hl⟩ := hb.linked a b h
      refine ⟨hne, hcon, fun ha => ?_⟩
      rcases hl ha with hl | hl
      · exact Or.inl hl
      · rcases hext a b hl with hl | ⟨rfl, rfl⟩
        · exact Or.inr hl
        · exact Or.inl hlink
    refine (retainOrRelease_calm hb hx (Or.inl hlink) hmiss).agrees ?_
    rintro _ m' hs hctl ⟨hb', hg, -⟩
    exact ⟨hb', hg.follows, hs, hctl, knows_unit, trivial⟩
  · refine Agree.get_bind ?_
    rw [if_neg hr, if_neg hr]
    exact (release_agrees hc hm (fun h => hr (Machine.retains_iff.mpr h)) hmiss hext).mono
      fun _ _ h => h.1

/-- The same for an edge that may not be there. -/
theorem forM_option_retainOrRelease_agrees (hc : Collects missing r r')
    (hm : (balance missing' extra').Fits m) {o : Option Handle}
    (hmiss : ∀ a b, missing' a b → missing a b ∨ (a = x ∧ b ∈ o.toList))
    (hext : ∀ a b, extra' a b → extra a b ∨ (a = x ∧ b ∈ o.toList)) :
    Agree False m (o.forM (retainOrRelease r x)) (o.forM (retainOrRelease r' x))
      ((balance missing extra).After m) := by
  cases o with
  | none =>
    have hb := hm.holds.mono (fun a b h => (hmiss a b h).resolve_right (by simp))
      (fun a b h => (hext a b h).resolve_right (by simp))
    exact Agree.pure (.refl (hm.rebalance hb (Nat.le_refl _) rfl) knows_unit)
  | some y =>
    refine retainOrRelease_agrees hc hm (fun a b h => (hmiss a b h).imp_right ?_)
      (fun a b h => (hext a b h).imp_right ?_)
    · simp [eq_comm]
    · simp [eq_comm]

/-- What is missing or extra may change from one run to the next. -/
theorem After.rebalance {α β : Type} [Held α] [Held β] {a : α} {b : β} {m₁ m₂ : Machine}
    (h₁ : (balance missing' extra').After m a m₁) (h₂ : (balance missing extra).After m₁ b m₂) :
    (balance missing extra).After m b m₂ :=
  ⟨h₂.holds, Follows.trans h₁.leads h₂.leads, h₂.scopes.trans h₁.scopes,
    h₂.control.trans h₁.control, h₂.knows, trivial⟩

/-- Settling the extra entries of a composite one after the other. -/
theorem forM_retainOrRelease_agrees (hc : Collects missing r r') {l : List Handle}
    (hm : (balance missing (plus extra x l)).Fits m) :
    Agree False m (l.forM (retainOrRelease r x)) (l.forM (retainOrRelease r' x))
      ((balance missing extra).After m) := by
  induction l generalizing m with
  | nil =>
    rw [plus_nil] at hm
    exact Agree.pure (.refl hm knows_unit)
  | cons y l ih =>
    refine Agree.bind (Q := (balance missing (plus extra x l)).After m)
      (retainOrRelease_agrees hc hm (fun _ _ => Or.inl) fun _ _ => plus_cons.mp) ?_
    intro _ m₁ h₁
    have hfits := hm.rebalance h₁.holds h₁.leads.size h₁.control
    exact (ih hfits).mono fun _ _ h₂ => After.rebalance h₁ h₂

/-- After an exchange, too, nothing is named that the store has yet to hand out. -/
theorem bounded_exchange {s : Store} (hb : s.Balanced missing extra) {c : Composite}
    (hx : s.get? x = some c) {new old : List Handle} (hex : c.Exchanges f new old)
    (hnew : ∀ y ∈ new, y.index < s.size) : ∀ y ∈ (f c).named, y.index < s.size := by
  have hbound := hb.bounded x _ (bare?_of_get? hx)
  rw [Composite.named_bare] at hbound
  intro y hy
  rcases List.mem_append.mp hy with hy | hy
  · rcases hex.come y hy with hy | hy
    · exact hbound y (List.mem_append_left _ hy)
    · exact hnew y hy
  · rcases hex.self y (Option.mem_toList.mp hy) with hy | hy
    · exact hbound y (List.mem_append_right _ (Option.mem_toList.mpr hy))
    · exact hnew y hy

/-- The links of a composite are changed, and then the new ones are settled before the old ones. -/
theorem relink_agrees (hc : Collects missing r r')
    (hm : (balance missing extra).Fits m) {c : Composite}
    (hx : m.store.get? x = some c) {new old : List Handle}
    (hf : c.Replaces f new old) (hnew : ∀ y ∈ new, y.index < m.store.size) :
    Agree False m (do modifyComposite x f; (new ++ old).forM (retainOrRelease r x))
      (do modifyComposite x f; (new ++ old).forM (retainOrRelease r' x))
        ((balance missing extra).After m) := by
  have hb : (m.store.modify x f).Balanced (plus missing x new) (plus extra x old) :=
    hm.holds.relink hx (hf.life c) (hf.retainers c)
      (bounded_exchange hm.holds hx hf.toExchanges hnew)
      (fun _ _ => Or.inl) (fun y hy => (hf.come y hy).imp_right fun h => Or.inr ⟨rfl, h⟩)
      (fun _ _ => Or.inl) (fun y hy => (hf.go y hy).imp_right fun h => Or.inr ⟨rfl, h⟩)
  have hfollows : m.store.Follows (m.store.modify x f) := .modify hf.life hf.retainers
  refine Agree.modifyStore_bind ?_
  show Agree False _ (forM (new ++ old) _) (forM (new ++ old) _) _
  rw [List.forM_append, List.forM_append]
  suffices hlist : Agree False { m with store := m.store.modify x f }
    (new.forM (retainOrRelease r x))
      (new.forM (retainOrRelease r' x)) ((balance missing (plus extra x old)).After m) by
    refine Agree.bind hlist fun _ m₁ h₁ => ?_
    have hfits := hm.rebalance h₁.holds h₁.leads.size h₁.control
    exact (forM_retainOrRelease_agrees hc hfits).mono fun _ _ h₂ => After.rebalance h₁ h₂
  by_cases ha : c.isAlive = true
  · -- The new links of a living composite are only listed.
    have hself := get?_modify_self f hx
    have halive : (m.store.modify x f).isAlive x = true :=
      isAlive_iff.mpr ⟨_, hself, (hf.life c).trans ha⟩
    refine (forM_retainOrRelease_calm (m := { m with store := m.store.modify x f }) hb
      halive ?_).agrees ?_
    · intro y hy
      refine Or.inl ?_
      show y ∈ (m.store.modify x f).references x
      rw [references_of_get? hself]
      exact hf.new_mem y hy
    · rintro _ m' hs hctl ⟨hb', hg, -⟩
      exact ⟨hb', hfollows.trans hg.follows, hs, hctl, knows_unit, trivial⟩
  · -- A dying one retains nothing, so nothing of it is missing.
    have hb' : (m.store.modify x f).Balanced missing (plus extra x old) := by
      refine hb.strengthen ?_ fun _ _ h _ _ _ => h
      rintro a b (h | ⟨rfl, _⟩) halive _
      · exact Or.inl h
      · rw [isAlive_modify hf.life] at halive
        obtain ⟨d, hd, hlive⟩ := isAlive_iff.mp halive
        cases hx.symm.trans hd
        exact absurd hlive ha
    have hfits : (balance missing (plus (plus extra x old) x new)).Fits
        { m with store := m.store.modify x f } :=
      hm.rebalance (hb'.mono (fun _ _ h => h) fun _ _ => Or.inl) hfollows.size rfl
    exact (forM_retainOrRelease_agrees hc hfits).mono fun _ _ h => h.after_change hfollows

/-- The same where the lists of old and new links may overlap. -/
theorem reconcile_agrees (hc : Collects missing r r')
    (hm : (balance missing extra).Fits m) {c : Composite}
    (hx : m.store.get? x = some c) {new old : List Handle}
    (hf : c.Replaces f new old) (hnew : ∀ y ∈ new, y.index < m.store.size) :
    Agree False m (do modifyComposite x f; reconcile r x old new)
      (do modifyComposite x f; reconcile r' x old new)
      ((balance missing extra).After m) :=
  relink_agrees hc hm hx hf.reconciled fun y hy => hnew y (Composite.mem_missingFrom.mp hy).1

/-- A change to what no link depends on. -/
theorem modify_keeps (hf : ∀ c, Composite.Exchanges f c [] []) :
    (balance missing extra).Keeps m (modifyComposite x f) (modifyComposite x f) := by
  intro hm
  refine Agree.modifyStore ?_
  cases hx : m.store.get? x with
  | none =>
    rw [modify_eq_self fun c hc => nomatch hx.symm.trans hc]
    exact .refl hm knows_unit
  | some c =>
    have hex := hf c
    have hbound := bounded_exchange hm.holds hx hex (by simp)
    have hb : (m.store.modify x f).Balanced missing extra :=
      hm.holds.relink hx (hex.life c) (hex.retainers c) hbound (fun _ _ => id)
        (fun y hy => Or.inl ((hex.come y hy).resolve_right fun h => nomatch h)) (fun _ _ => id)
        (fun y hy => Or.inl ((hex.go y hy).resolve_right fun h => nomatch h))
    exact ⟨hb, .modify hex.life hex.retainers, rfl, rfl, knows_unit, trivial⟩

end Settling

/-! ## Changes -/

section Changes

variable {r r' : Rules} {missing extra : Store.Edges} {m : Machine} (hc : Collects missing r r')

include hc

theorem mutation_keeps (mutation : Mutation)
    (hstored : ∀ y ∈ mutation.stored, y.index < m.store.size) :
    (balance missing extra).Keeps m (mutation.run r) (mutation.run r') := by
  intro hm
  rcases mutation.run_cases m with ⟨_, hrun⟩ | ⟨c, f, new, old, hx, hf, _, hnew, hrun⟩
  · exact Agree.congr (hrun r) (hrun r') (Agree.pure (.refl hm knows_unit))
  · exact Agree.congr (hrun r) (hrun r') (relink_agrees hc hm hx hf fun y hy =>
      hstored y (hnew y hy))

theorem setMember_keeps (x : Handle) (name : String) {overload : Overload} (placement : Placement)
    (ho : (balance missing extra).Knows m.store overload) :
    (balance missing extra).Keeps m (setMember r x name overload placement)
      (setMember r' x name overload placement) := by
  intro hm
  unfold setMember
  generalize placement.target x = target
  obtain ⟨owner, index⟩ := target
  refine Agree.store_bind ?_
  dsimp only
  split
  · exact Agree.pure (.refl hm knows_none)
  · rename_i c hx
    cases hplace : placeOverload overload index ((c.members.get? name).getD []) with
    | mk old placed =>
      rw [← bind_assoc, ← bind_assoc]
      have hreferences := (knows_overload_iff.mp ho).1
      refine (reconcile_agrees hc hm hx (Composite.replaces_member c hplace) hreferences).bind
        fun _ m' h => ?_
      have howner := Nat.lt_of_lt_of_le (index_lt_size hx) h.leads.size
      exact Agree.pure ⟨h.holds, h.leads, h.scopes, h.control,
        knows_some.mpr (knows_handle.mpr howner), trivial⟩

omit hc in
theorem Composite.setSlot_get (c : Composite) (slot : Slot) :
    c.setSlot slot (c.links.get slot) = c := by
  cases slot <;> rfl

/-- A slot releases what it named before it retains what it names, so in between that is missing. -/
theorem setSlot_keeps (x : Handle) (slot : Slot) {value : Option Handle}
    (hc' : Collects (plus missing x value.toList) r r')
    (hv : (balance missing extra).Knows m.store value) :
    (balance missing extra).Keeps m (setSlot r x slot value) (setSlot r' x slot value) := by
  intro hm
  refine Agree.store_bind ?_
  split
  · exact Agree.pure (.refl hm knows_unit)
  rename_i c hx
  dsimp only
  split
  · exact Agree.pure (.refl hm knows_unit)
  refine Agree.modifyStore_bind ?_
  have hex := Composite.exchanges_slot c slot value
  have hbound : ∀ y ∈ value.toList, y.index < m.store.size := by
    intro y hy
    rw [Option.mem_toList.mp hy] at hv
    exact knows_handle.mp hv
  have hnamed := bounded_exchange hm.holds hx hex hbound
  have hfollows : m.store.Follows (m.store.modify x fun c => c.setSlot slot value) :=
    .modify hex.life hex.retainers
  by_cases hsame : c.links.get slot = value
  · rw [if_neg (not_not_intro hsame), if_neg (not_not_intro hsame)]
    have hself : c.setSlot slot value = c := by rw [← hsame, Composite.setSlot_get]
    have hb : (m.store.modify x fun c => c.setSlot slot value).Balanced missing extra :=
      hm.holds.relink hx (hex.life c) (hex.retainers c) hnamed (fun _ _ => id)
        (fun y hy => Or.inl (hself ▸ hy)) (fun _ _ => id) (fun y hy => Or.inl (hself.symm ▸ hy))
    exact Agree.pure ⟨hb, hfollows, rfl, rfl, knows_unit, trivial⟩
  · rw [if_pos hsame, if_pos hsame]
    have hb : (m.store.modify x fun c => c.setSlot slot value).Balanced
      (plus missing x value.toList)
        (plus extra x (c.links.get slot).toList) :=
      hm.holds.relink hx (hex.life c) (hex.retainers c) hnamed
        (fun _ _ => Or.inl) (fun y hy => (hex.come y hy).imp_right fun h => Or.inr ⟨rfl, h⟩)
        (fun _ _ => Or.inl) (fun y hy => (hex.go y hy).imp_right fun h => Or.inr ⟨rfl, h⟩)
    have hfits :
      (balance (plus missing x value.toList) (plus extra x (c.links.get slot).toList)).Fits
        { m with store := m.store.modify x fun c => c.setSlot slot value } :=
      hm.rebalance hb hfollows.size rfl
    refine Agree.bind (Q := (balance (plus missing x value.toList) extra).After m)
      ?_ fun _ m₁ h₁ => ?_
    · exact (forM_option_retainOrRelease_agrees hc' hfits (fun _ _ => Or.inl) fun _ _ => id).mono
        fun _ _ h => h.after_change hfollows
    · have hfits₁ := hm.rebalance h₁.holds h₁.leads.size h₁.control
      exact (forM_option_retainOrRelease_agrees hc hfits₁ (fun _ _ => id) fun _ _ => Or.inl).mono
        fun _ _ h₂ => After.rebalance h₁ h₂

end Changes

end CompositeGraph
