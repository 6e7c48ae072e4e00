/-
  HOLDING: who answers for the composites that are there.

  A composite is looked at again when a list of retainers loses an entry, when its scope is left,
  when a transfer that holds it is dropped.  So each composite that is there has somebody to answer
  for it: the lists lead from it to a holder, which is the outermost namespace, the namespace of a
  scope (not only of the innermost), a composite in a transfer, or one whose life is just ending.
  Whatever the lists lead to no holder from is loose, and stays for good unless
  something happens to look at it.

    1. HOLDERS.     `Machine.holders`, and `Machine.Accounted Q`: all but what
                    hangs on a `Q` is held.
    2. CHANGES.     What primitive changes do to that.
    3. SETTLING.    `Settles K A`: store work after which nothing hangs on the `A`s any more.
    4. RELEASING.   From what destroying does to what releasing and collecting do.
    5. DESTROYING.  `destroyNow` settles what it destroys, deinitializers included.
-/
import CompositeGraph.Proofs.Stacks
import CompositeGraph.Proofs.Remnants

namespace CompositeGraph

open Run Store

/-! ## Holders -/

/-- The lists of retainers lead from a composite to one of a sort. -/
inductive Store.Anchored (s : Store) (P : Handle → Prop) : Handle → Prop where
  | base {h : Handle} : P h → Anchored s P h
  | step {a h : Handle} : a ∈ s.retainers h → Anchored s P a → Anchored s P h

namespace Store.Anchored

variable {s : Store} {P : Handle → Prop} {h : Handle}

theorem of_kept {roots : List Handle} (hh : s.Kept roots h) (hroots : ∀ x ∈ roots, P x) :
    s.Anchored P h := by
  induction hh with
  | root hm => exact .base (hroots _ hm)
  | retained hlisted _ ih => exact .step hlisted ih

theorem mono {Q : Handle → Prop} (hh : s.Anchored P h) (hPQ : ∀ x, P x → Q x) : s.Anchored Q h := by
  induction hh with
  | base hx => exact .base (hPQ _ hx)
  | step hlisted _ ih => exact .step hlisted ih

theorem kept {roots : List Handle} (hh : s.Anchored (· ∈ roots) h) : s.Kept roots h := by
  induction hh with
  | base hm => exact .root hm
  | step hlisted _ ih => exact .retained hlisted ih

end Store.Anchored

theorem Control.mem_handles {c : Control} {x : Handle} :
    x ∈ c.handles ↔ ∃ frame ∈ c.frames, x ∈ Value.optionHandles (frame.bind (·.value)) := by
  rw [handles, List.mem_flatMap]
  simp only [List.mem_reverse]

/-- Who is in which list after one list got an entry. -/
theorem Store.mem_retainers_adding {s : Store} {a b x y : Handle} :
    x ∈ (s.modify b fun c => c.mapRetainers (Paired.adding a)).retainers y ↔
      x ∈ s.retainers y ∨ x = a ∧ y = b ∧ s.contains b = true := by
  by_cases hy : y = b
  · subst hy
    by_cases hthere : s.contains y = true
    · rw [retainers_mapRetainers hthere, Paired.mem_adding]
      simp [hthere]
    · rw [retainers_eq_nil (by rw [contains_modify]; exact hthere), retainers_eq_nil hthere]
      simp [hthere]
  · rw [retainers_modify_ne hy]
    simp [hy]

namespace Machine

variable {m m' : Machine} {P Q : Handle → Prop}

/-- Composites that the machine itself holds: the outermost namespace, the namespaces of the scopes,
    what transfers hold, and composites whose life is ending. -/
def holders (m : Machine) : List Handle :=
  m.global?.toList ++ m.scopes.map (·.namespaceHandle) ++ m.control.handles ++
    (m.store.live.filter fun entry => !entry.2.isAlive).map (·.1)

theorem mem_holders {h : Handle} :
    h ∈ m.holders ↔ m.global? = some h ∨ h ∈ m.scopes.map (·.namespaceHandle) ∨
      h ∈ m.control.handles ∨
      m.store.isDying h = true := by
  have hdying : h ∈ (m.store.live.filter fun entry => !entry.2.isAlive).map (·.1) ↔
    m.store.isDying h = true := by
    rw [isDying_iff, List.mem_map]
    constructor
    · rintro ⟨⟨x, c⟩, hmem, rfl⟩
      obtain ⟨hlive, hends⟩ := List.mem_filter.mp hmem
      exact ⟨c, mem_live.mp hlive, by simpa using hends⟩
    · rintro ⟨c, hc, hends⟩
      exact ⟨(h, c), List.mem_filter.mpr ⟨mem_live.mpr hc, by simp [hends]⟩, rfl⟩
  rw [holders, List.mem_append, List.mem_append, List.mem_append, hdying, Option.mem_toList]
  simp only [or_assoc]

/-- Whoever is in a list is there; the lists lead from everything that is there to a holder or to a
    `Q`; and nothing is handed on with an abort. -/
structure Accounted (m : Machine) (Q : Handle → Prop) : Prop where
  listed : ∀ a b, a ∈ m.store.retainers b → m.store.contains a = true
  anchored : ∀ h, m.store.contains h = true → m.store.Anchored (fun x => x ∈ m.holders ∨ Q x) h
  aborts : ∀ t, some t ∈ m.control.frames → t.kind = some .abort → t.value = none

namespace Accounted

/-- From one machine to the next: what is new, what lost an entry of its list and what lost a holder
    all hang on something of the new sort. -/
theorem change (hm : m.Accounted P)
    (hnew : ∀ x, m'.store.contains x = true → m.store.contains x = true ∨ Q x)
    (hstruck : ∀ a x, m'.store.contains x = true → a ∈ m.store.retainers x →
      a ∈ m'.store.retainers x ∨ Q x)
    (hheld : ∀ x, m'.store.contains x = true → x ∈ m.holders ∨ P x → x ∈ m'.holders ∨ Q x)
    (hlisted : ∀ a b, a ∈ m'.store.retainers b → m'.store.contains a = true)
    (haborts : ∀ t, some t ∈ m'.control.frames → t.kind = some .abort → t.value = none) :
      m'.Accounted Q where
  listed := hlisted
  aborts := haborts
  anchored h hthere := by
    have hcarried : ∀ x, m.store.Anchored (fun x => x ∈ m.holders ∨ P x) x →
      m'.store.contains x = true →
        m'.store.Anchored (fun x => x ∈ m'.holders ∨ Q x) x := by
      intro x hx
      induction hx with
      | base hbase => exact fun hthere => .base (hheld _ hthere hbase)
      | @step a x hmem _ ih =>
        intro hthere
        rcases hstruck a x hthere hmem with hmem | hQ
        · exact .step hmem (ih (hlisted a x hmem))
        · exact .base (.inr hQ)
    rcases hnew h hthere with hold | hQ
    · exact hcarried h (hm.anchored h hold) hthere
    · exact .base (.inr hQ)

/-- Only what is there and is not held otherwise has to be of the new sort. -/
theorem weaken (hm : m.Accounted P) (hPQ : ∀ x, P x → m.store.contains x = true →
      m.store.Anchored (fun x => x ∈ m.holders ∨ Q x) x) :
    m.Accounted Q where
  listed := hm.listed
  aborts := hm.aborts
  anchored h hthere := by
    have hcarried : ∀ x, m.store.Anchored (fun x => x ∈ m.holders ∨ P x) x →
      m.store.contains x = true →
        m.store.Anchored (fun x => x ∈ m.holders ∨ Q x) x := by
      intro x hx
      induction hx with
      | base hbase =>
        intro hthere
        rcases hbase with hheld | hP
        · exact .base (.inl hheld)
        · exact hPQ _ hP hthere
      | @step a x hmem _ ih => exact fun _ => .step hmem (ih (hm.listed a x hmem))
    exact hcarried h (hm.anchored h hthere) hthere

theorem mono (hm : m.Accounted P) (hPQ : ∀ x, P x → Q x) : m.Accounted Q :=
  hm.weaken fun x hx _ => .base (.inr (hPQ x hx))

/-- The store is changed, and scopes and frames are as they were.  What was dying is dying still, or
    of the new sort; and the outermost namespace is whatever is in the first slot. -/
theorem change_store {t : Store} (hm : m.Accounted P)
    (hnew : ∀ x, t.contains x = true → m.store.contains x = true ∨ Q x)
    (hstruck : ∀ a x, t.contains x = true → a ∈ m.store.retainers x → a ∈ t.retainers x ∨ Q x)
    (hdying : ∀ x, t.contains x = true → m.store.isDying x = true → t.isDying x = true ∨ Q x)
    (hP : ∀ x, t.contains x = true → P x → t.isDying x = true ∨ Q x)
    (hlisted : ∀ a b, a ∈ t.retainers b → t.contains a = true) :
    ({ m with store := t } : Machine).Accounted Q := by
  refine hm.change hnew hstruck (fun x hthere hx => ?_) hlisted hm.aborts
  have hends : t.isDying x = true ∨ Q x → x ∈ ({ m with store := t } : Machine).holders ∨ Q x :=
    fun h => h.imp_left fun h => mem_holders.mpr (.inr (.inr (.inr h)))
  rcases hx with hheld | hx
  · rcases mem_holders.mp hheld with hglobal | hscope | hcontrol | hends'
    · have hindex := (handleAt?_eq_some_iff.mp hglobal).2
      exact .inl (mem_holders.mpr (.inl (handleAt?_eq_some_iff.mpr ⟨hthere, hindex⟩)))
    · exact .inl (mem_holders.mpr (.inr (.inl hscope)))
    · exact .inl (mem_holders.mpr (.inr (.inr (.inl hcontrol))))
    · exact hends (hdying x hthere hends')
  · exact hends (hP x hthere hx)

/-- Scopes and frames are changed, and the store is as it was. -/
theorem change_stacks {scopes : List Scope} {control : Control} (hm : m.Accounted P)
    (hscopes : ∀ x ∈ m.scopes.map (·.namespaceHandle), x ∈ scopes.map (·.namespaceHandle) ∨ Q x)
    (hcontrol : ∀ x, x ∈ m.control.handles ∨ P x → x ∈ control.handles ∨ Q x)
    (haborts : ∀ t, some t ∈ control.frames → t.kind = some .abort → t.value = none) :
    ({ m with scopes, control } : Machine).Accounted Q := by
  refine hm.change (fun _ => .inl) (fun _ _ _ => .inl) (fun x _ hx => ?_) hm.listed haborts
  have hframes : x ∈ m.control.handles ∨ P x →
    x ∈ ({ m with scopes, control } : Machine).holders ∨ Q x :=
    fun h => (hcontrol x h).imp_left fun h => mem_holders.mpr (.inr (.inr (.inl h)))
  rcases hx with hheld | hx
  · rcases mem_holders.mp hheld with hglobal | hscope | hcontrol' | hends
    · exact .inl (mem_holders.mpr (.inl hglobal))
    · exact (hscopes x hscope).imp_left fun h => mem_holders.mpr (.inr (.inl h))
    · exact hframes (.inl hcontrol')
    · exact .inl (mem_holders.mpr (.inr (.inr (.inr hends))))
  · exact hframes (.inr hx)

/-- Reports and the like do not matter. -/
theorem of_same (hm : m.Accounted P) (hstore : m'.store = m.store) (hscopes : m'.scopes = m.scopes)
    (hcontrol : m'.control = m.control) : m'.Accounted P := by
  have hholders : m'.holders = m.holders := by
    rw [holders, holders, global?, global?, hstore, hscopes, hcontrol]
  refine ⟨?_, ?_, ?_⟩
  · rw [hstore]
    exact hm.listed
  · rw [hstore, hholders]
    exact hm.anchored
  · rw [hcontrol]
    exact hm.aborts

/-! ## Changes -/

/-- A composite is changed, but neither whether it is alive nor its retainers. -/
theorem amend (hm : m.Accounted Q) (h : Handle) {f : Composite → Composite}
    (hlife : ∀ c, (f c).isAlive = c.isAlive)
    (hretainers : ∀ c, (f c).links.retainers = c.links.retainers) :
    ({ m with store := m.store.modify h f } : Machine).Accounted Q := by
  refine hm.change_store (fun x hx => ?_) (fun a x _ ha => ?_) (fun x _ hx => ?_)
    (fun _ _ => .inr) fun a b ha => ?_
  · rw [contains_modify] at hx
    exact .inl hx
  · rw [retainers_modify hretainers]
    exact .inl ha
  · rw [isDying_modify hlife]
    exact .inl hx
  · rw [retainers_modify hretainers] at ha
    rw [contains_modify]
    exact hm.listed a b ha

/-- A new composite is in no list and has none, so it has to be of the sort. -/
theorem add (hm : m.Accounted Q) {title : Option String} {type : TypeTree}
    (hnext : Q m.store.next) :
    ({ m with store := (m.store.add (.fresh title type)).1 } : Machine).Accounted Q := by
  have hget : ∀ {x}, x ≠ m.store.next →
    (m.store.add (.fresh title type)).1.get? x = m.store.get? x :=
    fun hx => get?_add_ne _ hx
  have hthere : ∀ {x}, m.store.contains x = true → x ≠ m.store.next := by
    rintro x hx rfl
    rw [Store.contains, get?_next] at hx
    cases hx
  have hretainers : ∀ x, (m.store.add (.fresh title type)).1.retainers x = m.store.retainers x := by
    intro x
    by_cases hx : x = m.store.next
    · rw [hx, Store.retainers, Store.retainers, get?_add_self, get?_next]
      rfl
    · rw [Store.retainers, Store.retainers, hget hx]
  refine hm.change_store (fun x hx => ?_) (fun a x _ ha => ?_) (fun x _ hx => ?_)
    (fun _ _ => .inr) fun a b ha => ?_
  · by_cases hnew : x = m.store.next
    · exact .inr (hnew ▸ hnext)
    · rw [Store.contains, hget hnew] at hx
      exact .inl hx
  · rw [hretainers]
    exact .inl ha
  · rw [Store.isDying, hget (hthere (contains_of_isDying hx))]
    exact .inl hx
  · rw [hretainers] at ha
    rw [Store.contains, hget (hthere (hm.listed a b ha))]
    exact hm.listed a b ha

/-- A composite that is there gets into a list. -/
theorem list (hm : m.Accounted Q) {a : Handle} (ha : m.store.contains a = true) (b : Handle) :
    ({ m with store := m.store.modify b fun c => c.mapRetainers (Store.Paired.adding a) } :
      Machine).Accounted Q := by
  refine hm.change_store (fun x hx => ?_) (fun e x _ he => ?_) (fun x _ hx => ?_)
    (fun _ _ => .inr) fun e x he => ?_
  · rw [contains_modify] at hx
    exact .inl hx
  · exact .inl (mem_retainers_adding.mpr (.inl he))
  · rw [isDying_of_bare? (bare?_mapRetainers b x _)]
    exact .inl hx
  · rw [contains_modify]
    rcases mem_retainers_adding.mp he with he | ⟨rfl, -⟩
    · exact hm.listed e x he
    · exact ha

/-- A list loses an entry: what has the list hangs on itself for now. -/
theorem strike (hm : m.Accounted Q) (a b : Handle) :
    ({ m with store := m.store.struck a b } : Machine).Accounted fun x => Q x ∨ x = b := by
  refine hm.change_store (fun x hx => ?_) (fun e x _ he => ?_) (fun x _ hx => ?_)
    (fun _ _ hx => .inr (.inl hx))
    fun e x he => ?_
  · rw [contains_modify] at hx
    exact .inl hx
  · by_cases hx : x = b
    · exact .inr (.inr hx)
    · exact .inl (Paired.mem_retainers_strike.mpr ⟨he, fun h => hx h.2⟩)
  · rw [isDying_of_bare? (bare?_mapRetainers b x _)]
    exact .inl hx
  · rw [contains_modify]
    exact hm.listed e x (Paired.mem_retainers_strike.mp he).1

/-- A life begins to end: from now on the composite is its own holder. -/
theorem die {h : Handle} (hm : m.Accounted fun x => Q x ∨ x = h) :
    ({ m with store := m.store.dead h } : Machine).Accounted Q := by
  have hends : ∀ x, m.store.isDying x = true ∨ x = h → m.store.contains x = true →
      (m.store.dead h).isDying x = true := by
    rintro x (hx | rfl) hthere
    · by_cases hxh : x = h
      · exact (isDying_dead (hxh ▸ hthere)).mpr (.inl hx)
      · rwa [isDying_modify_ne hxh]
    · exact (isDying_dead hthere).mpr (.inr rfl)
  refine hm.change_store (fun x hx => ?_) (fun e x _ he => ?_) (fun x hthere hx => ?_)
    (fun x hthere hx => ?_)
    fun e x he => ?_
  · rw [contains_modify] at hx
    exact .inl hx
  · rw [retainers_dead]
    exact .inl he
  · rw [contains_modify] at hthere
    exact .inl (hends x (.inl hx) hthere)
  · rw [contains_modify] at hthere
    rcases hx with hx | hx
    · exact .inr hx
    · exact .inl (hends x (.inr hx) hthere)
  · rw [retainers_dead] at he
    rw [contains_modify]
    exact hm.listed e x he

/-- A composite that is in no list goes; its own goes with it. -/
theorem free (hm : m.Accounted Q) {h : Handle} (hgone : ∀ b, b ≠ h → h ∉ m.store.retainers b) :
    ({ m with store := m.store.free h } : Machine).Accounted Q := by
  have hother : ∀ {x}, (m.store.free h).contains x = true → x ≠ h := by
    rintro x hx rfl
    rw [Store.contains, get?_free, if_pos rfl] at hx
    cases hx
  have hget : ∀ {x}, x ≠ h → (m.store.free h).get? x = m.store.get? x := get?_free_ne
  refine hm.change_store (fun x hx => ?_) (fun a x hthere ha => ?_)
    (fun x hthere hx => ?_) (fun _ _ => .inr)
    fun a b ha => ?_
  · rw [Store.contains, hget (hother hx)] at hx
    exact .inl hx
  · rw [Store.retainers, hget (hother hthere)]
    exact .inl ha
  · rw [Store.isDying, hget (hother hthere)]
    exact .inl hx
  · have hb := hother (contains_of_mem_retainers ha)
    rw [Store.retainers, hget hb] at ha
    have hah : a ≠ h := by
      rintro rfl
      exact hgone b hb ha
    rw [Store.contains, hget hah]
    exact hm.listed a b ha

/-- The innermost frame goes: what its transfer held hangs on itself for now. -/
theorem popFrame (hm : m.Accounted Q) :
    ({ m with control := m.control.pop.2 } : Machine).Accounted fun x =>
      Q x ∨ x ∈ Value.optionHandles (m.control.current?.bind (·.value)) := by
  refine hm.change_stacks (fun _ => .inl) (fun x hx => ?_) fun t ht =>
    hm.aborts t (List.mem_of_mem_tail ht)
  rw [Control.mem_handles] at hx ⊢
  rcases hx with ⟨frame, hmem, hx⟩ | hx
  case inr => exact .inr (.inl hx)
  cases hframes : m.control.frames with
  | nil =>
    rw [hframes] at hmem
    cases hmem
  | cons old rest =>
    rw [hframes] at hmem
    rcases List.mem_cons.mp hmem with rfl | hmem
    · refine .inr (.inr ?_)
      rwa [Control.current?, hframes]
    · refine .inl ⟨frame, ?_, hx⟩
      rw [Control.pop, hframes]
      exact hmem

/-- The transfer of the innermost frame is replaced: what it held hangs on itself for now, and what
    the new one holds no longer needs to. -/
theorem replaceFrame {old new : Option Transfer} {rest : List (Option Transfer)}
    (hm : m.Accounted fun x => Q x ∨ x ∈ Value.optionHandles (new.bind (·.value)))
    (hframes : m.control.frames = old :: rest)
    (hnew : ∀ t, new = some t → t.kind = some .abort → t.value = none) :
    ({ m with control := ⟨new :: rest⟩ } : Machine).Accounted fun x =>
      Q x ∨ x ∈ Value.optionHandles (old.bind (·.value)) := by
  refine hm.change_stacks (fun _ => .inl) (fun x hx => ?_) fun t ht => ?_
  · rw [Control.mem_handles] at hx ⊢
    rcases hx with ⟨frame, hmem, hx⟩ | hx | hx
    · rw [hframes] at hmem
      rcases List.mem_cons.mp hmem with rfl | hmem
      · exact .inr (.inr hx)
      · exact .inl ⟨frame, List.mem_cons_of_mem _ hmem, hx⟩
    · exact .inr (.inl hx)
    · exact .inl ⟨new, List.mem_cons_self, hx⟩
  · rcases List.mem_cons.mp ht with ht | ht
    · exact hnew t ht.symm
    · exact hm.aborts t (hframes ▸ List.mem_cons_of_mem _ ht)

/-- A frame is put in place, with no transfer in it. -/
theorem pushFrame (hm : m.Accounted Q) :
    ({ m with control := m.control.push } : Machine).Accounted Q := by
  refine hm.change_stacks (fun _ => .inl) (fun x hx => hx.imp_left fun hx => ?_) fun t ht => ?_
  · rw [Control.mem_handles] at hx ⊢
    obtain ⟨frame, hmem, hx⟩ := hx
    exact ⟨frame, List.mem_cons_of_mem _ hmem, hx⟩
  · rcases List.mem_cons.mp ht with ht | ht
    · cases ht
    · exact hm.aborts t ht

theorem pushScope (hm : m.Accounted Q) (scope : Scope) :
    ({ m with scopes := scope :: m.scopes } : Machine).Accounted Q :=
  hm.change_stacks (fun _ hx => .inl (List.mem_cons_of_mem _ hx)) (fun _ => id) hm.aborts

/-- The innermost scope is left: its namespace hangs on itself for now. -/
theorem popScope (hm : m.Accounted Q) {scope : Scope} {rest : List Scope}
    (hscopes : m.scopes = scope :: rest) :
    ({ m with scopes := rest } : Machine).Accounted fun x => Q x ∨ x = scope.namespaceHandle := by
  refine hm.change_stacks (fun x hx => ?_) (fun _ hx => hx.imp_right .inl) hm.aborts
  rw [hscopes, List.map_cons] at hx
  rcases List.mem_cons.mp hx with hx | hx
  · exact .inr (.inr hx)
  · exact .inl hx

end Accounted

end Machine

/-! ## Settling -/

/-- Store work: scopes and frames are as they were, and whatever hung on an `A` is held, hangs on a
    `K`, or is gone. -/
structure Settles (K A : Handle → Prop) (m m' : Machine) : Prop where
  follows : m.store.Follows m'.store
  scopes : m'.scopes = m.scopes
  control : m'.control = m.control
  accounted : ∀ Q : Handle → Prop, (∀ h, K h → Q h) →
    m.Accounted (fun h => Q h ∨ A h) → m'.Accounted Q

/-- All that a flow may do: besides, the transfer of the innermost frame may be another one. -/
structure Accounts (K : Handle → Prop) (m m' : Machine) : Prop where
  follows : m.store.Follows m'.store
  scopes : m'.scopes = m.scopes
  below : m'.control.frames.tail = m.control.frames.tail
  framed : m.control.frames ≠ [] → m'.control.frames ≠ []
  accounted : ∀ Q : Handle → Prop, (∀ h, K h → Q h) → m.Accounted Q → m'.Accounted Q

namespace Settles

variable {K A B : Handle → Prop} {m m' m'' : Machine}

/-- There is nothing to be done where whatever hangs on an `A` is held anyway. -/
theorem idle (hA : ∀ x, A x → m.store.contains x = true → m.store.Anchored (· ∈ m.holders) x) :
    Settles K A m m := by
  refine ⟨.refl _, rfl, rfl, fun Q _ hm => hm.weaken fun x hx hthere => ?_⟩
  rcases hx with hx | hx
  · exact .base (.inr hx)
  · exact (hA x hx hthere).mono fun _ => .inl

theorem trans (h : Settles K A m m') (h' : Settles K B m' m'') :
    Settles K (fun x => A x ∨ B x) m m'' where
  follows := h.follows.trans h'.follows
  scopes := h'.scopes.trans h.scopes
  control := h'.control.trans h.control
  accounted Q hQ hm := by
    refine h'.accounted Q hQ (h.accounted _ (fun x hx => .inl (hQ x hx)) (hm.mono fun x hx => ?_))
    rcases hx with hx | hx | hx
    · exact .inl (.inl hx)
    · exact .inr hx
    · exact .inl (.inr hx)

/-- Only what is there can hang on anything. -/
theorem weaken (h : Settles K B m m') (hAB : ∀ x, A x → m.store.contains x = true → B x) :
    Settles K A m m' where
  follows := h.follows
  scopes := h.scopes
  control := h.control
  accounted Q hQ hm := h.accounted Q hQ (hm.weaken fun x hx hthere =>
    .base (.inr (hx.imp_right fun hx => hAB x hx hthere)))

theorem accounts (h : Settles K A m m') : Accounts K m m' where
  follows := h.follows
  scopes := h.scopes
  below := by rw [h.control]
  framed := by
    rw [h.control]
    exact id
  accounted Q hQ hm := h.accounted Q hQ (hm.mono fun _ => .inl)

end Settles

namespace Accounts

variable {K K' : Handle → Prop} {m m' m'' : Machine}

theorem of_same (hstore : m'.store = m.store) (hscopes : m'.scopes = m.scopes)
    (hcontrol : m'.control = m.control) : Accounts K m m' where
  follows := hstore ▸ .refl _
  scopes := hscopes
  below := by rw [hcontrol]
  framed := by
    rw [hcontrol]
    exact id
  accounted _ _ hm := hm.of_same hstore hscopes hcontrol

theorem trans (h : Accounts K m m') (h' : Accounts K m' m'') : Accounts K m m'' where
  follows := h.follows.trans h'.follows
  scopes := h'.scopes.trans h.scopes
  below := h'.below.trans h.below
  framed hm := h'.framed (h.framed hm)
  accounted Q hQ hm := h'.accounted Q hQ (h.accounted Q hQ hm)

theorem mono (h : Accounts K m m') (hK : ∀ x, K x → K' x) : Accounts K' m m' :=
  { h with accounted := fun Q hQ => h.accounted Q fun x hx => hQ x (hK x hx) }

/-- What is there afterwards and hangs on nothing else has to be held, or of the narrower sort. -/
theorem narrow (h : Accounts K' m m') (hK : ∀ x, K' x → m'.store.contains x = true →
      m'.store.Anchored (fun y => y ∈ m'.holders ∨ K y) x) :
    Accounts K m m' where
  follows := h.follows
  scopes := h.scopes
  below := h.below
  framed := h.framed
  accounted Q hQ hm := by
    have hwide := h.accounted (fun x => Q x ∨ K' x) (fun _ => .inr) (hm.mono fun _ => .inl)
    refine hwide.weaken fun x hx hthere => ?_
    rcases hx with hx | hx
    · exact .base (.inr hx)
    · exact (hK x hx hthere).mono fun y hy => hy.imp_right (hQ y)

end Accounts

/-! ## Releasing -/

/-- What destroying has to do, in stores of a size. -/
def Disposes (K : Handle → Prop) (size : Nat) (r r' : Rules) : Prop :=
  ∀ m h, size ≤ m.store.size → Agree True m (r.destroy h) (r'.destroy h) fun _ =>
    Settles K (· = h) m

/-- What calling has to do. -/
def Answers (K : Handle → Prop) (size : Nat) (r r' : Rules) : Prop :=
  ∀ m c, size ≤ m.store.size → Discipline.IsOpen m.control →
    Agree True m (r.call c).outcome (r'.call c).outcome fun _ => Accounts K m

/-- What the machine's own walk finds kept is held. -/
theorem Machine.anchored_of_isRetained {m : Machine} {h : Handle} (hh : m.isRetained h = true) :
    m.store.Anchored (· ∈ m.holders) h := by
  refine .of_kept (reaches_iff.mp hh) fun x hx => Machine.mem_holders.mpr ?_
  rw [Machine.roots, List.mem_append, List.mem_append, Option.mem_toList, Option.mem_toList] at hx
  rcases hx with (hx | hx) | hx
  · exact .inr (.inr (.inl hx))
  · exact .inl hx
  · refine .inr (.inl ?_)
    obtain ⟨scope, hhead, rfl⟩ := Option.map_eq_some_iff.mp hx
    exact List.mem_map_of_mem (List.mem_of_mem_head? hhead)

section Releasing

variable {K : Handle → Prop} {size : Nat} {r r' : Rules} {m : Machine} (hd : Disposes K size r r')

/-- Several pieces of store work, one after the other. -/
theorem forM_settles {γ : Type} {f g : γ → Run Unit} {A : γ → Handle → Prop} {l : List γ}
    (hf : ∀ c m, size ≤ m.store.size → Agree True m (f c) (g c) fun _ => Settles K (A c) m)
    (hsize : size ≤ m.store.size) :
    Agree True m (l.forM f) (l.forM g) fun _ => Settles K (fun x => ∃ c ∈ l, A c x) m := by
  induction l generalizing m with
  | nil =>
    refine Agree.pure (Settles.idle fun x hx => ?_)
    obtain ⟨c, hc, _⟩ := hx
    cases hc
  | cons c l ih =>
    refine (hf c m hsize).bind fun _ m₁ h₁ => ?_
    refine (ih (Nat.le_trans hsize h₁.follows.size)).mono fun _ m₂ h₂ =>
      (h₁.trans h₂).weaken fun x hx _ => ?_
    obtain ⟨d, hmem, hx⟩ := hx
    rcases List.mem_cons.mp hmem with rfl | hmem
    · exact .inl hx
    · exact .inr ⟨d, hmem, hx⟩

variable (hsize : size ≤ m.store.size)

include hd hsize

theorem destroyIfReleased_settles (h : Handle) :
    Agree True m (destroyIfReleased r h) (destroyIfReleased r' h) fun _ => Settles K (· = h) m := by
  refine Agree.get_bind ?_
  split
  · exact hd m h hsize
  · next hkept =>
    refine Agree.pure (Settles.idle ?_)
    rintro x rfl hthere
    refine Machine.anchored_of_isRetained ?_
    simpa [hthere] using hkept

theorem collectTransfer_settles (transfer : Option Transfer) :
    Agree True m (collectTransfer r transfer) (collectTransfer r' transfer)
      fun _ => Settles K (· ∈ Value.optionHandles (transfer.bind (·.value))) m :=
  (forM_settles (fun h _ hsize => destroyIfReleased_settles hd hsize h) hsize).mono fun _ _ h =>
    h.weaken fun x hx _ => ⟨x, hx, rfl⟩

/-- Every slot from one on is looked at, and so is all that is there from that slot on. -/
theorem collectFrom_settles (start : Nat) :
    Agree True m (collectFrom r start) (collectFrom r' start) fun _ =>
      Settles K (start ≤ ·.index) m := by
  refine Agree.store_bind
    ((forM_settles (K := K) (A := fun index x => x.index = index) ?_ hsize).mono fun _ m₁ h₁ => ?_)
  · intro index m hsize
    refine Agree.store_bind ?_
    cases hslot : m.store.handleAt? index with
    | none =>
      refine Agree.pure (Settles.idle fun x hx hthere => ?_)
      rw [handleAt?_eq_some_iff.mpr ⟨hthere, hx⟩] at hslot
      cases hslot
    | some h =>
      obtain ⟨hh, hindex⟩ := handleAt?_eq_some_iff.mp hslot
      refine (destroyIfReleased_settles hd hsize h).mono fun _ _ h₁ =>
        h₁.weaken fun x hx hthere => ?_
      exact eq_of_index_eq hthere hh (hx.trans hindex.symm)
  · refine h₁.weaken fun x hx hthere => ⟨x.index, ?_, rfl⟩
    have hlt := index_lt_size_of_contains hthere
    rw [List.mem_range'_1]
    omega

/-- An entry is struck off, and what has the list is looked at. -/
theorem release_settles (a b : Handle) :
    Agree True m (release r a b) (release r' a b) fun _ m' => Settles K (fun _ => False) m m' ∧
      (m.store.isDying a = true → a ≠ b → a ∉ m'.store.retainers b) := by
  refine Agree.store_bind ?_
  split
  · refine Agree.modifyStore_bind ?_
    have hsize' : size ≤ (m.store.struck a b).size := by
      rw [size_modify]
      exact hsize
    refine (destroyIfReleased_settles (m := { m with store := m.store.struck a b })
      hd hsize' b).mono ?_
    rintro _ m' h
    refine ⟨⟨(Follows.strike a b).trans h.follows, h.scopes, h.control, fun Q hQ hm => ?_⟩,
      fun hdying _ hmem => ?_⟩
    · exact h.accounted Q hQ ((hm.mono fun x hx => hx.resolve_right id).strike a b)
    · have hstruck : (m.store.struck a b).isDying a = true := by
        rw [isDying_of_bare? (bare?_mapRetainers b a _)]
        exact hdying
      have hmem := h.follows.retained a b hstruck hmem
      exact (Paired.mem_retainers_strike.mp hmem).2 ⟨rfl, rfl⟩
  · next hnone =>
    refine Agree.pure ⟨Settles.idle fun _ h => h.elim, fun _ hne hmem => ?_⟩
    simp [hne, hmem] at hnone

theorem retainOrRelease_settles (a b : Handle) :
    Agree True m (retainOrRelease r a b) (retainOrRelease r' a b) fun _ =>
      Settles K (fun _ => False) m := by
  refine Agree.get_bind ?_
  split
  · next hretains =>
    have ha := (Machine.retains_iff.mp hretains).1
    unfold retain
    split
    · exact Agree.pure (Settles.idle fun _ h => h.elim)
    · refine Agree.modifyStore ⟨(Grows.list b ha).follows, rfl, rfl, fun Q _ hm => ?_⟩
      exact (hm.mono fun x hx => hx.resolve_right id).list (contains_of_isAlive ha) b
  · exact (release_settles hd hsize a b).mono fun _ _ h => h.1

/-! ## Destroying -/

/-- A deinitializer is called in a frame of its own; whatever its transfer holds is looked at
    afterwards. -/
theorem runDeinitializer_settles (hc : Answers K size r r') (object : Handle) :
    Agree True m (runDeinitializer r object) (runDeinitializer r' object) fun _ =>
      Settles K (fun _ => False) m := by
  refine Agree.get_bind ?_
  split
  · exact Agree.pure (Settles.idle fun _ h => h.elim)
  next function _ =>
  refine Agree.step (n := { m with control := m.control.push }) rfl ?_
  refine (hc { m with control := m.control.push } _ hsize ⟨by simp [Control.push], rfl⟩).bind
    fun _ m₁ h₁ => ?_
  have hcontrol : (⟨m₁.control.frames.tail⟩ : Control) = m.control := by
    rw [h₁.below]
    rfl
  refine Agree.step (n := { m₁ with control := m₁.control.pop.2 }) rfl ?_
  refine (collectTransfer_settles (m := { m₁ with control := m₁.control.pop.2 }) hd
    (Nat.le_trans hsize h₁.follows.size) _).mono fun _ m₂ h₂ => ?_
  refine ⟨h₁.follows.trans h₂.follows, h₂.scopes.trans h₁.scopes, h₂.control.trans hcontrol,
    fun Q hQ hm => ?_⟩
  exact h₂.accounted Q hQ
    (h₁.accounted Q hQ (hm.mono fun x hx => hx.resolve_right id).pushFrame).popFrame

/-- A dying composite is struck off the lists that it is in. -/
theorem forM_release_settles {h : Handle} {l : List (Handle × Composite)}
    (hdying : m.store.isDying h = true) (hne : ∀ p ∈ l, h ≠ p.1) :
    Agree True m (l.forM fun p => release r h p.1) (l.forM fun p => release r' h p.1) fun _ m' =>
      Settles K (fun _ => False) m m' ∧ ∀ p ∈ l, h ∉ m'.store.retainers p.1 := by
  induction l generalizing m with
  | nil => exact Agree.pure ⟨Settles.idle fun _ h => h.elim, fun _ hp => absurd hp List.not_mem_nil⟩
  | cons p l ih =>
    refine (release_settles hd hsize h p.1).bind ?_
    rintro _ m₁ ⟨h₁, hstruck⟩
    have hdying₁ : m₁.store.isDying h = true := (h₁.follows.dying h).trans hdying
    refine (ih (Nat.le_trans hsize h₁.follows.size) hdying₁ fun q hq =>
      hne q (List.mem_cons_of_mem _ hq)).mono ?_
    rintro _ m₂ ⟨h₂, hrest⟩
    refine ⟨(h₁.trans h₂).weaken fun _ h => h.elim, fun q hq => ?_⟩
    rcases List.mem_cons.mp hq with rfl | hq
    · exact fun hmem =>
        hstruck hdying (hne q List.mem_cons_self) (h₂.follows.retained h q.1 hdying₁ hmem)
    · exact hrest q hq

/-- A dying composite is struck off all lists but its own, and then it is freed. -/
theorem depart_settles {m₀ : Machine} {h : Handle} (ha : m₀.store.isAlive h = true)
    (h₀ : Settles K (fun _ => False) { m₀ with store := m₀.store.dead h } m) :
    Agree True m (depart r h) (depart r' h) fun _ => Settles K (· = h) m₀ := by
  have hdying : m.store.isDying h = true := by
    rw [h₀.follows.dying h]
    exact (isDying_dead (contains_of_isAlive ha)).mpr (.inr rfl)
  refine Agree.store_bind ((forM_release_settles hd hsize hdying fun p hp => ?_).bind ?_)
  · obtain ⟨_, hp⟩ := List.mem_filter.mp hp
    have hother := (Bool.and_eq_true_iff.mp hp).1
    exact fun heq => by simp [heq] at hother
  rintro _ m₁ ⟨h₁, hstruck⟩
  -- An entry that is there now was there before the release, so it was among those released.
  have hgone : ∀ b, b ≠ h → h ∉ m₁.store.retainers b := by
    intro b hne hmem
    have hbefore := h₁.follows.retained h b hdying hmem
    obtain ⟨c, hb⟩ := contains_iff.mp (contains_of_mem_retainers hbefore)
    refine hstruck (b, c) (List.mem_filter.mpr ⟨mem_live.mpr hb, ?_⟩) hmem
    rw [retainers_of_get? hb] at hbefore
    simp [hne, hbefore]
  obtain ⟨reports, hremove⟩ :=
    removeFromStore_eq (contains_of_isDying ((h₁.follows.dying h).trans hdying))
  refine Agree.of_eq hremove ⟨.free ha (h₀.follows.trans h₁.follows), h₁.scopes.trans h₀.scopes,
    h₁.control.trans h₀.control, fun Q hQ hm => ?_⟩
  have hmarked := h₀.accounted Q hQ (hm.die.mono fun _ => .inl)
  exact ((h₁.accounted Q hQ (hmarked.mono fun _ => .inl)).free hgone).of_same rfl rfl rfl

/-- A life is ended, and nothing hangs on what has gone. -/
theorem destroyNow_settles (hc : Answers K size r r') (h : Handle) :
    Agree True m (destroyNow r h) (destroyNow r' h) fun _ => Settles K (· = h) m := by
  by_cases ha : m.store.isAlive h = true
  · have hsize' : size ≤ (m.store.dead h).size := by
      rw [size_modify]
      exact hsize
    have hends := runDeinitializer_settles (m := { m with store := m.store.dead h }) hd hsize' hc h
    refine destroyNow_agrees ha (.idle fun _ h => h.elim) hends fun m₁ h₁ => ?_
    exact depart_settles hd (Nat.le_trans hsize' h₁.follows.size) ha h₁
  · refine destroyNow_idle ha (.idle ?_)
    rintro x rfl hthere
    refine .base (Machine.mem_holders.mpr (.inr (.inr (.inr ?_))))
    exact (contains_iff_alive_or_dying.mp hthere).resolve_left ha

end Releasing

end CompositeGraph
