/-
  DESTRUCTION keeps the balance, at every depth.

  While a composite is being destroyed it is dying: it retains nothing any more, but is still listed
  by what it retained.  Its deinitializer runs then, and may do anything; but nothing that is dying
  gets into a list, so in the end its entries are just those that are struck off before it is freed.

  The rules are compared with rules under a watch, which may refuse to destroy a composite.  If the
  watch lets everything pass that is not kept in a balanced store, the watched run
  does what the run does.

    1. ADMITTED.   What programs do to the store keeps the balance if collecting does.
    2. DYING.      `destroyNow` keeps the balance.
    3. WATCHES.    `watched`, and the induction over the depth of the rules.
-/
import CompositeGraph.Proofs.Evaluation
import CompositeGraph.Proofs.Growth

namespace CompositeGraph

open Run Discipline Store

variable {r r' : Rules} {missing extra : Store.Edges} {m : Machine} {h : Handle}

/-! ## Admitted -/

/-- An operator of a namespace, or the life of an object: no link depends on them. -/
theorem setOperator_keeps (symbol : String) (operator : Operator) :
    (balance missing extra).Keeps m (setOperator h symbol operator)
    (setOperator h symbol operator) := by
  unfold setOperator
  split
  · exact Keeps.pure knows_unit
  · refine modify_keeps fun c => .of_same c (fun d => ?_) (fun d => ?_) ?_
    · split <;> rfl
    · split <;> rfl
    · split <;> rfl

theorem settle_keeps : (balance missing extra).Keeps m (settle h) (settle h) := by
  refine modify_keeps fun c => .of_same c (fun d => ?_) (fun d => ?_) ?_
  · split
    · rename_i hlife
      rw [Composite.isAlive, Composite.isAlive, hlife]
      rfl
    · rfl
  · split <;> rfl
  · split <;> rfl

theorem admits_balance (hc : Collects missing r r') : (balance missing extra).Admits r r' where
  destroyIfReleased h := hc extra h
  setMember h name _ placement ho := setMember_keeps hc h name placement ho
  removeMember h name := mutation_keeps hc (.removeMember h name) nofun
  setType h type ht := mutation_keeps hc (.setType h type) (knows_type.mp ht).2
  setImport h name imported hi := mutation_keeps hc (.setImport h name imported) fun y hy => by
    rw [List.mem_singleton.mp hy]
    exact hi
  setOperator _ symbol operator := setOperator_keeps symbol operator
  settle _ := settle_keeps
  createFunction title statements _ hs := createFunction_keeps hs title statements
  createNamespace title _ levels hs := createNamespace_keeps hs title levels
  createDeclared kind identifier parts _ hs := (createDeclared_keeps kind identifier parts hs).makes
  initializerObject scope _ generics hs _ := initializerObject_keeps scope generics hs

/-! ## Dying -/

/-- The entries of a dying composite are struck off one after the other. -/
theorem forM_release_agrees (hc : Collects missing r r') {l : List (Handle × Composite)}
    (hm : (balance missing extra).Fits m) (hd : m.store.isDying h = true) :
    Agree False m (l.forM fun p => release r h p.1) (l.forM fun p => release r' h p.1) fun u m' =>
      (balance missing extra).After m u m' ∧ ∀ p ∈ l, h ∉ m'.store.retainers p.1 := by
  induction l generalizing m with
  | nil => exact Agree.pure ⟨.refl hm knows_unit, fun _ hp => nomatch hp⟩
  | cons p l ih =>
    have hgone : ¬(m.store.isAlive h = true ∧ p.1 ∈ m.store.references h) := by
      rintro ⟨ha, _⟩
      rw [isDying_eq_false_of_isAlive ha] at hd
      cases hd
    refine Agree.bind (Q := fun u m' => (balance missing extra).After m u m' ∧
        (m.store.isDying h = true → h ∉ m'.store.retainers p.1))
      (release_agrees hc hm hgone (fun _ _ => Or.inl) fun _ _ => Or.inl) ?_
    rintro _ m₁ ⟨h₁, hstruck⟩
    have hd₁ : m₁.store.isDying h = true := (h₁.leads.dying h).trans hd
    refine (ih (h₁.fits hm) hd₁).mono ?_
    rintro _ m₂ ⟨h₂, hrest⟩
    refine ⟨h₁.trans h₂, fun q hq => ?_⟩
    rcases List.mem_cons.mp hq with rfl | hq
    · exact fun hmem => hstruck hd (h₂.leads.retained h q.1 hd₁ hmem)
    · exact hrest q hq

/-- A composite that is in no list any more is freed. -/
theorem removeFromStore_agrees {m₀ : Machine} (hm : (balance missing extra).Fits m)
    (ha : m₀.store.isAlive h = true) (hf : (m₀.store.dead h).Follows m.store)
    (hstruck : ∀ b, h ∉ m.store.retainers b) (hscopes : m.scopes = m₀.scopes)
    (hcontrol : m.control = m₀.control) :
    Agree False m (removeFromStore h) (removeFromStore h) ((balance missing extra).After m₀) := by
  have hd : m.store.isDying h = true := by
    rw [hf.dying h]
    exact (isDying_dead (contains_of_isAlive ha)).mpr (.inr rfl)
  have hb : (m.store.free h).Balanced missing extra := hm.holds.free hstruck
  obtain ⟨reports, hremove⟩ := removeFromStore_eq (contains_of_isDying hd)
  exact Agree.of_eq hremove ⟨hb, .free ha hf, hscopes, hcontrol, knows_unit, trivial⟩

/-- Everything a dying composite is listed by is released, and then it is freed. -/
theorem depart_agrees {m₀ : Machine} (hc : Collects missing r r')
    (hm : (balance missing extra).Fits m)
    (ha : m₀.store.isAlive h = true) (hf : (m₀.store.dead h).Follows m.store)
    (hscopes : m.scopes = m₀.scopes) (hcontrol : m.control = m₀.control) :
    Agree False m (depart r h) (depart r' h) ((balance missing extra).After m₀) := by
  have hd : m.store.isDying h = true := by
    rw [hf.dying h]
    exact (isDying_dead (contains_of_isAlive ha)).mpr (.inr rfl)
  refine Agree.store_bind ((forM_release_agrees hc hm hd).bind ?_)
  rintro _ m₁ ⟨h₁, hstruck⟩
  refine removeFromStore_agrees (h₁.fits hm) ha (hf.trans h₁.leads) ?_ (h₁.scopes.trans hscopes)
    (h₁.control.trans hcontrol)
  -- An entry that is there now was there before the release, so it was among those released.
  intro b hmem
  have hbefore := h₁.leads.retained h b hd hmem
  obtain ⟨c, hb⟩ := contains_iff.mp (contains_of_mem_retainers hbefore)
  refine hstruck (b, c) (List.mem_filter.mpr ⟨mem_live.mpr hb, ?_⟩) hmem
  rw [retainers_of_get? hb] at hbefore
  have hne : b ≠ h := fun heq => (hm.holds.linked h b (h₁.leads.retained h b hd hmem)).1 heq.symm
  simp [hne, hbefore]

theorem destroyNow_keeps (hc : Collects missing r r') (ho : (balance missing extra).Obeys r r') :
    (balance missing extra).Keeps m (destroyNow r h) (destroyNow r' h) := by
  intro hm
  by_cases ha : m.store.isAlive h = true
  · have hfits : (balance missing extra).Fits { m with store := m.store.dead h } :=
      hm.rebalance (hm.holds.die h) (Nat.le_of_eq (size_modify _ _).symm) rfl
    have hknown : (balance missing extra).known (m.store.dead h) h := by
      show h.index < Store.size _
      rw [size_modify]
      exact index_lt_size_of_contains (contains_of_isAlive ha)
    refine destroyNow_agrees ha (.refl hfits knows_unit)
      (runDeinitializer_keeps (admits_balance hc) ho hknown hfits) fun m₁ h₁ => ?_
    exact depart_agrees hc (h₁.fits hfits) ha h₁.leads h₁.scopes h₁.control
  · exact destroyNow_idle ha (.refl hm knows_unit)

/-! ## Watches -/

/-- The run breaks off, as its watch does not let the next step pass. -/
def Run.refused {α : Type} : Run α := fun _ => .error .refused

/-- The rules under a watch, which is asked before a composite is destroyed. -/
def watched (refuses : Machine → Handle → Bool) : (depth : Nat) → Rules
  | 0 => rules 0
  | depth + 1 =>
    { budget := depth
      eval := fun node scope => evalNow (watched refuses depth) node scope
      evalLink := fun node scope => linkNow (watched refuses depth) node scope
      call := fun call => callNow (watched refuses depth) call
      destroy := fun handle => do
        if refuses (← get) handle then Run.refused else destroyNow (watched refuses depth) handle }

theorem rules_budget (depth : Nat) : (rules (depth + 1)).budget = depth := rfl

theorem watched_destroy (refuses : Machine → Handle → Bool) (depth : Nat)
    (h : Handle) (m : Machine) : (watched refuses (depth + 1)).destroy h m =
      (if refuses m h then Run.refused else destroyNow (watched refuses depth) h : Run Unit) m :=
        rfl

/-- The watch lets everything pass that is not kept in a store without missing
    edges of some sort. -/
def Passes (missing : Store.Edges) (refuses : Machine → Handle → Bool) : Prop :=
  ∀ m h extra, m.store.Balanced missing extra → m.store.contains h = true → m.isRetained h = false →
    refuses m h = false

/-- At every depth the rules keep the balance, and a watch that lets this pass changes nothing. -/
theorem obeys_balance {refuses : Machine → Handle → Bool}
    (hpass : Passes missing refuses) (depth : Nat) :
    (∀ extra, (balance missing extra).Obeys (rules depth) (watched refuses depth)) ∧
      Collects missing (rules depth) (watched refuses depth) := by
  induction depth with
  | zero => exact ⟨fun _ => obeys_zero, fun _ => collecting_of_destroy fun _ => Keeps.exhausted⟩
  | succ depth ih =>
    obtain ⟨ho, hc⟩ := ih
    refine ⟨fun extra => (admits_balance hc).obeys (ho extra), fun extra m h hm =>
      Agree.get_bind ?_⟩
    split
    · rename_i hreleased
      obtain ⟨hthere, hretained⟩ := Bool.and_eq_true_iff.mp hreleased
      have hrefuses : refuses m h = false :=
        hpass m h extra hm.holds hthere (by simpa using hretained)
      have hkeeps := destroyNow_keeps (h := h) hc (ho extra) hm
      rw [Agree, watched_destroy, hrefuses]
      exact hkeeps
    · exact Agree.pure (.refl hm knows_unit)

/-- On their own the rules keep the balance, whatever is missing. -/
theorem rules_keep_balance (depth : Nat) :
    (∀ missing, Collects missing (rules depth) (rules depth)) ∧
      ∀ missing extra, (balance missing extra).Obeys (rules depth) (rules depth) := by
  have hpass : ∀ missing, Passes missing fun _ _ => false := fun _ _ _ _ _ _ _ => rfl
  refine ⟨fun missing extra m h hm => ((obeys_balance (hpass missing) depth).2 extra h hm).self, ?_⟩
  intro missing extra
  have ho := (obeys_balance (hpass missing) depth).1 extra
  exact ⟨rfl, fun node _ hs hm hopen => (ho.eval node hs hm hopen).self,
    fun node _ hs hm hopen => (ho.evalLink node hs hm hopen).self,
    fun hcall hm hopen => (ho.call hcall hm hopen).self⟩

end CompositeGraph
