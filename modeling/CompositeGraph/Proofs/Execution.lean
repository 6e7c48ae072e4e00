/-
  EXECUTION KEEPS A DISCIPLINE: scopes, frames, statements and calls.

  What is asked of a discipline is that the changes which programs make to the store keep it
  (`Serves`), that what is called for one level deeper keeps it (`Obeys`), and that a few steps do
  which concern scopes and frames (`Minds`).  Everything that is put together from these then keeps
  it too.  For a discipline of the store alone those steps keep it as soon as
  collecting does (`Admits`).

    1. ASKED.       `Serves`, `Obeys` and `Minds`; `Admits`.
    2. FRAMES.      Transfers and scopes that are put in place and taken away again.
    3. STATEMENTS.  Several statements, branches and loops.
    4. CALLS.       `callNow`: only a throw or an abort gets out of a call.
    5. ENDINGS.     `destroyNow` in its parts: a composite begins to die, its deinitializer runs,
                    and it departs.
-/
import CompositeGraph.Proofs.Knowledge

namespace CompositeGraph.Discipline

open Run

variable {D : Discipline} {r r' : Rules}

/-! ## Asked -/

/-- The changes to a store that programs make keep the discipline. -/
structure Serves (D : Discipline) (r r' : Rules) : Prop where
  setMember : ∀ {m} h name {overload} placement, D.Knows m.store overload →
    D.Keeps m (setMember r h name overload placement) (setMember r' h name overload placement)
  removeMember : ∀ {m} h name, D.Keeps m (removeMember r h name) (removeMember r' h name)
  setType : ∀ {m} h {type}, D.Knows m.store type → D.Keeps m (setType r h type) (setType r' h type)
  setImport : ∀ {m} h name {imported}, D.known m.store imported →
    D.Keeps m (setImport r h name imported) (setImport r' h name imported)
  setOperator : ∀ {m} h symbol operator,
    D.Keeps m (setOperator h symbol operator) (setOperator h symbol operator)
  settle : ∀ {m} h, D.Keeps m (settle h) (settle h)
  createFunction : ∀ {m} title statements {scope}, D.Knows m.store scope →
    D.Keeps m (createFunction r title statements scope) (createFunction r' title statements scope)
  createNamespace : ∀ {m} title {scope} levels, D.Knows m.store scope →
    D.Keeps m (createNamespace r title scope levels) (createNamespace r' title scope levels)
  createDeclared : ∀ {m} kind identifier parts {scope}, D.known m.store scope →
    D.Makes m (createDeclared r kind identifier parts scope)
    (createDeclared r' kind identifier parts scope)
  initializerObject : ∀ {m} scope {classHandle generics}, D.known m.store classHandle →
    D.Knows m.store generics →
    D.Keeps m (initializerObject r scope classHandle generics)
      (initializerObject r' scope classHandle generics)

/-- What is no longer retained is destroyed as the discipline asks. -/
def Collecting (D : Discipline) (r r' : Rules) : Prop :=
  ∀ {m} h, D.Keeps m (destroyIfReleased r h) (destroyIfReleased r' h)

/-- It is enough that destroying anything at all keeps the discipline. -/
theorem collecting_of_destroy (hd : ∀ {m} h, D.Keeps m (r.destroy h) (r'.destroy h)) :
    D.Collecting r r' := by
  intro m h
  refine Keeps.get_bind ?_
  split
  · exact hd h
  · exact Keeps.pure knows_unit

/-- And so does looking at a composite again. -/
structure Admits (D : Discipline) (r r' : Rules) : Prop extends D.Serves r r' where
  destroyIfReleased : D.Collecting r r'

/-- The kinds of transfer that get out of a call. -/
def raised (k : TransferKind) : Prop := k = .throw ∨ k = .abort

/-- Any kind of transfer. -/
def any (_ : TransferKind) : Prop := True

/-- What is called for keeps the discipline. -/
structure Obeys (D : Discipline) (r r' : Rules) : Prop where
  budget : r'.budget = r.budget
  eval : ∀ {m} node {scope}, D.known m.store scope →
    D.Flows any m (r.eval node scope) (r'.eval node scope)
  evalLink : ∀ {m} node {scope}, D.known m.store scope →
    D.Flows any m (r.evalLink node scope) (r'.evalLink node scope)
  call : ∀ {m} {c : Call}, D.Knows m.store c → D.Flows raised m (r.call c) (r'.call c)

/-- The machine afterwards fits, with these scopes and frames. -/
structure Reaches (D : Discipline) (m : Machine) (scopes : List Scope)
    (control : Control) (m' : Machine) : Prop where
  fits : D.Fits m'
  leads : D.leads m.store m'.store
  scopes : m'.scopes = scopes
  control : m'.control = control
  follows : D.regime.leads m m'

/-- All that evaluation is put together from keeps the discipline. -/
structure Minds (D : Discipline) (r r' : Rules) : Prop extends D.Serves r r', D.Obeys r r' where
  /-- Nothing is handed on with an abort. -/
  setTransfer : ∀ {m value k}, (k = .abort → value = none) → D.Knows m.store value → D.Fits m →
    m.control.frames ≠ [] → Agree D.regime.watched m (setTransfer r value (some k))
    (setTransfer r' value (some k))
      fun _ => D.Reaches m m.scopes (m.control.set value (some k)).2
  resetTransfer : ∀ {m}, D.Fits m → m.control.frames ≠ [] →
    Agree D.regime.watched m (resetTransfer r) (resetTransfer r') fun _ =>
      D.Reaches m m.scopes m.control.take.2
  /-- A scope is left, and its namespace looked at again unless it is a loose one. -/
  withScope : ∀ {α : Type} [Held α] {K m} {body body' : Flow α} (scope : Scope) (collect : Bool),
    collect = true ∨ D.regime.loose scope.namespaceHandle →
    (∀ m', m'.store = m.store → D.Flows K m' body body') →
    D.Flows K m (withScope r scope collect body) (withScope r' scope collect body')
  executeStatement : ∀ {m} node {scope} tail, D.known m.store scope →
    D.Flows any m (executeStatement r node scope tail) (executeStatement r' node scope tail)

/-! ## Frames -/

section Frames

variable {m : Machine} (ha : D.Admits r r')

theorem Reaches.of_after {α : Type} [Held α] {a : α} {m' : Machine} (hm : D.Fits m)
    (h : D.After m a m') :
    D.Reaches m m.scopes m.control m' := ⟨h.fits hm, h.leads, h.scopes, h.control, h.follows⟩

omit ha in
/-- How a flow ended stays so while the frames do. -/
theorem Ends.mono {α : Type} [Held α] {K : TransferKind → Prop}
    {o : Except Unwind α} {m₁ m₂ : Machine}
    (h : D.Ends K m₁ o) (hl : D.leads m₁.store m₂.store) (hc : m₂.control = m₁.control) :
      D.Ends K m₂ o := by
  cases o with
  | ok a => exact ⟨by rw [hc]; exact h.1, h.2.mono hl⟩
  | error u =>
    obtain ⟨k, hkind, hK⟩ := h
    exact ⟨k, by rw [hc]; exact hkind, hK⟩

omit ha in
theorem frames_ne_nil_of_kind? {c : Control} {k : TransferKind} (h : c.kind? = some k) :
    c.frames ≠ [] := by
  intro hnil
  simp [Control.kind?, Control.current?, hnil] at h

omit ha in
/-- However a flow ended, there is a frame. -/
theorem Lands.frames_ne_nil {α : Type} [Held α] {K : TransferKind → Prop}
    {o : Except Unwind α} {m' : Machine} (h : D.Lands K m o m') : m'.control.frames ≠ [] := by
  cases o with
  | ok a => exact h.ends.1.1
  | error u =>
    obtain ⟨k, hk, -⟩ := h.ends
    exact frames_ne_nil_of_kind? hk

section Control

variable {c : Control} (hc : c.frames ≠ []) (value : Option Value)

include hc

theorem isOpen_set_none : IsOpen (c.set value none).2 := by
  unfold Control.set
  split
  · exact absurd ‹_› hc
  · exact ⟨by simp, rfl⟩

theorem kind?_set (k : TransferKind) : (c.set value (some k)).2.kind? = some k := by
  unfold Control.set
  split
  · exact absurd ‹_› hc
  · rfl

theorem isOpen_take : IsOpen c.take.2 := by
  unfold Control.take
  split
  · exact absurd ‹_› hc
  · exact ⟨by simp, rfl⟩

omit hc in
theorem tail_set (kind : Option TransferKind) :
    (c.set value kind).2.frames.tail = c.frames.tail := by
  unfold Control.set
  split
  · rfl
  · rename_i h; rw [h]; rfl

omit hc in
theorem tail_take : c.take.2.frames.tail = c.frames.tail := by
  unfold Control.take
  split
  · rfl
  · rename_i h; rw [h]; rfl

end Control

omit ha in
theorem Fits.frames_set {value : Option Value} (hm : D.Fits m) (hv : D.Knows m.store value)
    (kind : Option TransferKind) : ∀ t ∈ (m.control.set value kind).2.frames,
      D.Knows m.store t := by
  unfold Control.set
  split
  · exact hm.frames
  · rename_i old rest hframes
    have hall := hm.frames
    rw [hframes] at hall
    exact List.forall_mem_cons.mpr ⟨hv, (List.forall_mem_cons.mp hall).2⟩

omit ha in
theorem Fits.frames_take (hm : D.Fits m) : ∀ t ∈ m.control.take.2.frames, D.Knows m.store t := by
  unfold Control.take
  split
  · exact hm.frames
  · rename_i old rest hframes
    have hall := hm.frames
    rw [hframes] at hall
    exact List.forall_mem_cons.mpr ⟨knows_none, (List.forall_mem_cons.mp hall).2⟩

omit ha in
theorem Fits.frames_push (hm : D.Fits m) : ∀ t ∈ m.control.push.frames, D.Knows m.store t :=
  List.forall_mem_cons.mpr ⟨knows_none, hm.frames⟩

include ha

theorem collectTransfer_keeps (t : Option Transfer) :
    D.Keeps m (collectTransfer r t) (collectTransfer r' t) :=
  Keeps.forM fun h _ _ _ => ha.destroyIfReleased h

theorem collectFrom_keeps (start : Nat) :
    D.Keeps m (collectFrom r start) (collectFrom r' start) := by
  refine Keeps.store_bind (Keeps.forM fun index _ m' _ => Keeps.store_bind ?_)
  exact Keeps.forM_option fun h _ => ha.destroyIfReleased h

variable [D.Storewise]

/-- Frames are changed, and then what came out of them is collected. -/
theorem collected_agrees {change : Control → Option Transfer × Control} (hm : D.Fits m)
    (hc : ∀ t ∈ (change m.control).2.frames, D.Knows m.store t) :
    Agree D.regime.watched m (withControl change >>= collectTransfer r)
      (withControl change >>= collectTransfer r')
      fun _ => D.Reaches m m.scopes (change m.control).2 := by
  have hfits : D.Fits { m with control := (change m.control).2 } := ⟨hm.holds, hc, starts_free⟩
  refine Agree.step (n := { m with control := (change m.control).2 }) rfl ?_
  refine (collectTransfer_keeps ha _ hfits).mono fun _ _ h => ?_
  exact ⟨h.fits hfits, h.leads, h.scopes, h.control, leads_free⟩

theorem setTransfer_agrees {value : Option Value} (kind : Option TransferKind) (hm : D.Fits m)
    (hv : D.Knows m.store value) :
    Agree D.regime.watched m (setTransfer r value kind) (setTransfer r' value kind)
      fun _ => D.Reaches m m.scopes (m.control.set value kind).2 :=
  collected_agrees ha hm (hm.frames_set hv kind)

theorem resetTransfer_agrees (hm : D.Fits m) :
    Agree D.regime.watched m (resetTransfer r) (resetTransfer r')
      fun _ => D.Reaches m m.scopes m.control.take.2 :=
  collected_agrees ha hm hm.frames_take

theorem popScope_agrees (collect : Bool) (hm : D.Fits m) :
    Agree D.regime.watched m (popScope r collect) (popScope r' collect)
      fun _ => D.Reaches m m.scopes.tail m.control := by
  unfold popScope
  refine Agree.get_bind ?_
  cases hs : m.scopes with
  | nil => exact Agree.pure ⟨hm, D.leads_refl _, hs, rfl, leads_free⟩
  | cons scope rest =>
    have hfits : D.Fits { m with scopes := rest } := ⟨hm.holds, hm.frames, starts_free⟩
    refine Agree.step (n := { m with scopes := rest }) rfl ?_
    cases collect with
    | false => exact Agree.pure ⟨hfits, D.leads_refl _, rfl, rfl, leads_free⟩
    | true =>
      refine (ha.destroyIfReleased _ hfits).mono fun _ _ h => ?_
      exact ⟨h.fits hfits, h.leads, h.scopes, h.control, leads_free⟩

/-- Something runs in a scope of its own, which is left however that ends. -/
theorem withScope_flows {α : Type} [Held α] {K : TransferKind → Prop} {body body' : Flow α}
    (scope : Scope) (collect : Bool) (hb : ∀ m', m'.store = m.store → D.Flows K m' body body') :
    D.Flows K m (withScope r scope collect body) (withScope r' scope collect body') := by
  intro hm ho
  have hfits : D.Fits { m with scopes := scope :: m.scopes } := ⟨hm.holds, hm.frames, starts_free⟩
  refine Agree.step (n := { m with scopes := scope :: m.scopes }) rfl ?_
  refine Agree.bind (hb _ rfl hfits ho) ?_
  intro o m₁ h₁
  refine (popScope_agrees ha collect h₁.fits).bind ?_
  intro _ m₂ h₂
  refine Agree.pure ⟨h₂.fits, D.leads_trans h₁.leads h₂.leads, ?_, ?_,
    h₁.ends.mono h₂.leads h₂.control, leads_free⟩
  · rw [h₂.scopes, h₁.scopes]; rfl
  · rw [h₂.control]; exact h₁.below

/-- A statement is run, and what it created is looked at again. -/
theorem executeStatement_flows (ho : D.Obeys r r') (node : Node) {scope : Handle} (tail : Bool)
    (hs : D.known m.store scope) :
    D.Flows any m (executeStatement r node scope tail) (executeStatement r' node scope tail) := by
  intro hm hopen
  -- what was created is collected last, whatever became of the statement
  have hcollect : ∀ (start : Nat) (displaced : Option Transfer) (o : Except Unwind (Option Value))
      (m₂ : Machine), D.Fits m₂ →
      Agree D.regime.watched m₂ (do collectFrom r start; collectTransfer r displaced; return o)
        (do collectFrom r' start; collectTransfer r' displaced; return o)
        fun o' m' => o' = o ∧ D.Reaches m₂ m₂.scopes m₂.control m' := by
    intro start displaced o m₂ hm₂
    refine (collectFrom_keeps ha start hm₂).bind fun _ m₃ h₃ => ?_
    refine (collectTransfer_keeps ha displaced (h₃.fits hm₂)).bind fun _ m₄ h₄ => ?_
    exact Agree.pure ⟨rfl, Reaches.of_after hm₂ (h₃.trans h₄)⟩
  refine Agree.store_bind ((ho.eval node hs hm hopen).bind ?_)
  intro o m₁ h₁
  cases o with
  | error u =>
    refine (Agree.pure (Q := fun _ m' => m' = m₁) rfl).bind ?_
    rintro displaced _ rfl
    refine (hcollect _ displaced _ _ h₁.fits).mono ?_
    rintro _ m' ⟨rfl, h⟩
    exact ⟨h.fits, D.leads_trans h₁.leads h.leads, h.scopes.trans h₁.scopes,
      by rw [h.control]; exact h₁.below, h₁.ends.mono h.leads h.control, leads_free⟩
  | ok value =>
    obtain ⟨hopen₁, hvalue⟩ := h₁.ends
    -- the value stays in the frame behind the last statement only
    let control := (if tail then m₁.control.set value none else m₁.control.take).2
    have hcontrol : IsOpen control ∧ control.frames.tail = m₁.control.frames.tail := by
      cases tail with
      | true => exact ⟨isOpen_set_none hopen₁.1 value, tail_set value none⟩
      | false => exact ⟨isOpen_take hopen₁.1, tail_take⟩
    have hframes : ∀ t ∈ control.frames, D.Knows m₁.store t := by
      cases tail with
      | true => exact h₁.fits.frames_set hvalue none
      | false => exact h₁.fits.frames_take
    have hfits : D.Fits { m₁ with control } := ⟨h₁.fits.holds, hframes, starts_free⟩
    refine Agree.step (n := { m₁ with control }) rfl ?_
    refine (hcollect _ _ _ _ hfits).mono ?_
    rintro _ m' ⟨rfl, h⟩
    refine ⟨h.fits, D.leads_trans h₁.leads h.leads, h.scopes.trans h₁.scopes, ?_,
      ⟨?_, hvalue.mono h.leads⟩, leads_free⟩
    · rw [h.control]; exact hcontrol.2.trans h₁.below
    · rw [h.control]; exact hcontrol.1

/-- For a discipline of the store alone nothing else is asked. -/
theorem Admits.minds (ho : D.Obeys r r') : D.Minds r r' where
  toServes := ha.toServes
  toObeys := ho
  setTransfer _ hv hm _ := setTransfer_agrees ha _ hm hv
  resetTransfer hm _ := resetTransfer_agrees ha hm
  withScope scope collect _ hb := withScope_flows ha scope collect hb
  executeStatement node _ tail hs := executeStatement_flows ha ho node tail hs

end Frames

/-! ## Statements -/

section Statements

variable {m : Machine} {scope : Handle} (hr : D.Minds r r')

include hr

/-- Control is transferred: the flow unwinds with that transfer under way. -/
theorem transferred_flows {α : Type} [Held α] {K : TransferKind → Prop} {value : Option Value}
    {k : TransferKind}
    (hv : D.Knows m.store value) (habort : k = .abort → value = none) (hk : K k) :
    D.Flows K m (do (setTransfer r value (some k) : Run Unit); Flow.unwind (α := α))
      (do (setTransfer r' value (some k) : Run Unit); Flow.unwind (α := α)) := by
  intro hm ho
  refine Agree.bind (Q := fun o m' =>
    o = .ok () ∧ D.Reaches m m.scopes (m.control.set value (some k)).2 m')
    ((hr.setTransfer habort hv hm ho.1).bind fun _ _ h => Agree.pure ⟨rfl, h⟩) ?_
  rintro _ m' ⟨rfl, h⟩
  refine Agree.pure ⟨h.fits, h.leads, h.scopes, ?_, ⟨k, ?_, hk⟩, h.follows⟩
  · rw [h.control]; exact tail_set value _
  · rw [h.control]; exact kind?_set ho.1 value k

/-- The transfer under way is taken away, and the flow goes on. -/
theorem resumed_agrees {α β : Type} [Held α] [Held β] {K : TransferKind → Prop} {m₀ : Machine}
    {o : Except Unwind β} (h₀ : D.Lands K m₀ o m) {a : α} (hk : ∀ s, D.Knows s a) :
    Agree D.regime.watched m (do resetTransfer r; return .ok a) (do resetTransfer r'; return .ok a)
      (D.Lands K m₀) := by
  refine (hr.resetTransfer h₀.fits h₀.frames_ne_nil).bind fun _ m' h => ?_
  refine Agree.pure ⟨h.fits, D.leads_trans h₀.leads h.leads,
    h.scopes.trans h₀.scopes, ?_, ⟨?_, hk _⟩, D.regime.trans h₀.follows h.follows⟩
  · rw [h.control, tail_take, h₀.below]
  · rw [h.control]; exact isOpen_take h₀.frames_ne_nil

theorem evalChild_flows (node : Option Node) (hs : D.known m.store scope) :
    D.Flows any m (evalChild r node scope) (evalChild r' node scope) := by
  cases node with
  | none => exact Flows.pure knows_none
  | some node => exact hr.eval node hs

theorem executeStatements_flows (nodes : List Node) (hs : D.known m.store scope) :
    D.Flows any m (executeStatements r scope nodes) (executeStatements r' scope nodes) := by
  induction nodes generalizing m with
  | nil => exact Flows.pure knows_none
  | cons node rest ih =>
    cases rest with
    | nil => exact hr.executeStatement node true hs
    | cons next rest =>
      refine (hr.executeStatement node false hs).bind ?_
      intro _ m₁ h₁ _
      exact ih (D.known_mono h₁ hs)

/-- An end at nil becomes nil; whatever else is under way goes on. -/
theorem absorbNilUnwrap_flows {x y : Flow (Option Value)} (hx : D.Flows any m x y) :
    D.Flows any m (absorbNilUnwrap r x) (absorbNilUnwrap r' y) := by
  intro hm hopen
  refine (hx hm hopen).bind ?_
  intro o m₁ h₁
  cases o with
  | ok value => exact Agree.pure h₁
  | error u =>
    refine Agree.get_bind ?_
    split
    · exact resumed_agrees hr h₁ fun _ => knows_none
    · exact Agree.pure h₁

theorem localNamespace_keeps (hs : D.known m.store scope) (statement : String) :
    D.Keeps m (localNamespace r scope statement) (localNamespace r' scope statement) :=
  Keeps.get_bind (hr.createNamespace _ _ (knows_handle.mpr hs))

theorem branch_flows (node : Option Node) (hs : D.known m.store scope) :
    D.Flows any m (branch r node scope) (branch r' node scope) := by
  unfold branch
  split
  · split
    · exact executeStatements_flows hr _ hs
    · exact hr.eval _ hs
  · exact Flows.pure knows_none

theorem ifStatement_flows (condition consequence alternative : Option Node)
    (hs : D.known m.store scope) :
    D.Flows any m (ifStatement r condition consequence alternative scope)
      (ifStatement r' condition consequence alternative scope) := by
  unfold ifStatement
  refine (Flows.lift (localNamespace_keeps hr hs "If")).bind ?_
  intro space m₁ h₁ hspace
  refine (hr.withScope _ true (.inl rfl) ?_).bind ?_
  · intro m₂ hm₂
    have hspace : D.known m₂.store space := by rw [hm₂]; exact knows_handle.mp hspace
    refine (evalChild_flows hr condition hspace).bind ?_
    intro value m₃ h₃ _
    have hspace := D.known_mono h₃ hspace
    split
    · refine (branch_flows hr consequence hspace).bind ?_
      exact fun value m₄ _ hvalue => Flows.pure hvalue
    · split
      · exact Flows.pure knows_none
      · refine (branch_flows hr alternative hspace).bind ?_
        exact fun value m₄ _ hvalue => Flows.pure hvalue
  · intro outcome m₂ h₂ houtcome
    cases outcome with
    | some value => exact Flows.pure houtcome
    | none => exact evalChild_flows hr alternative (D.known_mono (D.leads_trans h₁ h₂) hs)

variable (condition body : Option Node)

theorem round_flows (hs : D.known m.store scope) :
    D.Flows any m (round r condition body scope) (round r' condition body scope) := by
  unfold Run.round
  refine (Flows.lift (localNamespace_keeps hr hs "While")).bind ?_
  intro space m₁ _ hspace
  refine hr.withScope _ true (.inl rfl) ?_
  intro m₂ hm₂
  have hspace : D.known m₂.store space := by rw [hm₂]; exact knows_handle.mp hspace
  refine (evalChild_flows hr condition hspace).bind ?_
  intro value m₃ h₃ _
  split
  · exact Flows.pure knows_bool
  · refine (branch_flows hr body (D.known_mono h₃ hspace)).bind ?_
    exact fun _ _ _ _ => Flows.pure knows_bool

theorem turn_flows (hs : D.known m.store scope) :
    D.Flows any m (turn r condition body scope) (turn r' condition body scope) := by
  intro hm hopen
  refine (round_flows hr condition body hs hm hopen).bind ?_
  intro o m₁ h₁
  have hreset : ∀ again : Bool, Agree D.regime.watched m₁ (do resetTransfer r; return .ok again)
      (do resetTransfer r'; return .ok again) (D.Lands any m) :=
    fun again => resumed_agrees hr h₁ fun _ => knows_bool
  match o, h₁ with
  | .ok false, h₁ => exact Agree.pure h₁
  | .ok true, h₁ => exact hreset true
  | .error u, h₁ =>
    refine Agree.get_bind ?_
    split
    · exact hreset false
    · exact hreset true
    · exact Agree.pure h₁

theorem loop_flows (rounds : Nat) (hs : D.known m.store scope) :
    D.Flows any m (loop r condition body scope rounds) (loop r' condition body scope rounds) := by
  induction rounds generalizing m with
  | zero => exact Flows.lift Keeps.exhausted
  | succ rounds ih =>
    refine (turn_flows hr condition body hs).bind ?_
    intro again m₁ h₁ _
    split
    · exact ih (D.known_mono h₁ hs)
    · exact Flows.pure knows_none

theorem whileStatement_flows (hs : D.known m.store scope) :
    D.Flows any m (whileStatement r condition body scope)
      (whileStatement r' condition body scope) := by
  unfold whileStatement
  rw [hr.budget]
  exact loop_flows hr condition body _ hs

theorem transfer_flows (value : Option Node) {k : TransferKind} (hk : k ≠ .abort)
    (hs : D.known m.store scope) :
    D.Flows any m (transfer r value k scope) (transfer r' value k scope) := by
  refine (evalChild_flows hr value hs).bind ?_
  exact fun v m₁ _ hv => transferred_flows hr hv (fun h => absurd h hk) trivial

end Statements

/-! ## Calls -/

section Calls

variable {m : Machine} {scope space : Handle} (hr : D.Minds r r')

variable {arguments : List Argument}

theorem callNative_keeps (native : Native) :
    D.Keeps m (callNative native arguments) (callNative native arguments) := by
  unfold callNative
  refine Keeps.get_bind ?_
  cases native with
  | print =>
    exact fun hm =>
      Agree.of_eq rfl ⟨hm.holds, D.leads_refl _, rfl, rfl, knows_none, D.regime.same rfl rfl rfl⟩
  | getComposite =>
    dsimp only
    split
    · split
      · exact Keeps.pure knows_none
      · refine Keeps.pure (knows_option.mpr ?_)
        intro v hv
        obtain ⟨h, hh, rfl⟩ := Option.map_eq_some_iff.mp hv
        exact knows_reference.mpr (D.known_there (Store.contains_of_handleAt? hh))
    · exact Keeps.pure knows_none
  | getCallsString => exact Keeps.pure (knows_some.mpr knows_text)

include hr

theorem bindName_keeps (name : String) {type : TypeTree} {value : Option Value}
    (ht : D.Knows m.store type) (hv : D.Knows m.store value) :
    D.Keeps m (bindName r space name type value) (bindName r' space name type value) := by
  refine (hr.setMember space name .append ?_).bind fun _ _ _ => Keeps.pure knows_unit
  exact knows_overload.mpr ⟨ht, hv, knows_nil⟩

theorem parameterValue_flows (hs : D.known m.store space)
    (hargs : D.Knows m.store arguments) (bound position : Nat) (part : TypePart) :
    D.Flows any m (parameterValue r space arguments bound position part)
      (parameterValue r' space arguments bound position part) := by
  unfold parameterValue
  split
  · refine Flows.pure (knows_pair.mpr ⟨?_, knows_nat⟩)
    refine knows_dictionary.mpr (knows_ofValues ?_)
    rw [knows_list]
    intro v hv
    obtain ⟨argument, hmem, rfl⟩ := List.mem_map.mp hv
    exact knows_list.mp (hargs.drop position) argument hmem
  · split
    · rename_i argument hargument
      have hargument : D.Knows m.store argument :=
        knows_option.mp (hargs.getElem? position) _ hargument
      exact Flows.pure (knows_pair.mpr ⟨hargument, knows_nat⟩)
    · refine (hr.eval _ hs).bind ?_
      exact fun v m₁ _ hv => Flows.pure (knows_pair.mpr ⟨hv, knows_nat⟩)
    · exact Flows.pure (knows_pair.mpr ⟨knows_none, knows_nat⟩)

theorem bindParametersFrom_flows {type : TypeTree} (bound position : Nat)
    (indices : List Nat) (hs : D.known m.store space) (ht : D.Knows m.store type)
    (hargs : D.Knows m.store arguments) :
    D.Flows any m (bindParametersFrom r space type arguments bound position indices)
      (bindParametersFrom r' space type arguments bound position indices) := by
  induction indices generalizing m bound position with
  | nil => exact Flows.pure knows_nat
  | cons index rest ih =>
    refine (parameterValue_flows hr hs hargs bound position _).bind ?_
    rintro ⟨value, bound⟩ m₁ h₁ hvalue
    refine (Flows.lift
      (bindName_keeps hr _ ((ht.mono h₁).subtype index) (knows_pair.mp hvalue).1)).bind ?_
    intro _ m₂ h₂ _
    have h₂ := D.leads_trans h₁ h₂
    exact ih _ _ (D.known_mono h₂ hs) (ht.mono h₂) (hargs.mono h₂)

theorem bindParameters_flows {type : TypeTree} (hs : D.known m.store space)
    (ht : D.Knows m.store type) (hargs : D.Knows m.store arguments) :
    D.Flows any m (bindParameters r space type arguments)
      (bindParameters r' space type arguments) := by
  refine (bindParametersFrom_flows hr 0 0 _ hs ht hargs).bind ?_
  intro bound m₁ h₁ _
  refine Flows.forM ?_
  rintro ⟨argument, position⟩ hmem m₂ h₂
  have hargument := knows_list.mp hargs argument (mem_of_mem_zipIdx (List.mem_of_mem_drop hmem))
  exact Flows.lift (bindName_keeps hr _ (knows_of_references_eq_nil TypeTree.sound_anything rfl)
    (hargument.mono (D.leads_trans h₁ h₂)))

theorem bindCaller_keeps {caller : Option Handle} (hc : D.Knows m.store caller) :
    D.Keeps m (bindCaller r space caller) (bindCaller r' space caller) := by
  have hsound : (TypeTree.ofPart { predefined := some .any, nillable := true }).Sound := by decide
  refine Keeps.forM_option fun h hh =>
    bindName_keeps hr _ (knows_of_references_eq_nil hsound rfl) ?_
  exact knows_reference.mpr (knows_handle.mp (knows_option.mp hc h hh))

theorem runClassStatements_flows {object : Handle} (hobject : D.known m.store object)
    (hloose : D.regime.loose object) :
    D.Flows any m (runClassStatements r object) (runClassStatements r' object) := by
  unfold runClassStatements
  refine Flows.store_bind ?_
  split
  · refine (hr.withScope _ false (.inr hloose) fun m' hm' => ?_).bind fun _ _ _ _ =>
      Flows.pure knows_unit
    exact executeStatements_flows hr _ (by rw [hm']; exact hobject)
  · exact Flows.pure knows_unit

theorem enterFunction_flows {type : TypeTree} (statements : Statements) {call : Call}
    {initializing : Option Handle} (hs : D.known m.store space) (ht : D.Knows m.store type)
    (hcall : D.Knows m.store call) (hinit : D.Knows m.store initializing)
    (hloose : ∀ object, initializing = some object → D.regime.loose object) :
    D.Flows any m (enterFunction r space type statements call initializing)
      (enterFunction r' space type statements call initializing) := by
  obtain ⟨_, hargs, _, hcaller⟩ := knows_call.mp hcall
  refine (Flows.lift (bindCaller_keeps hr hcaller)).bind fun _ m₁ h₁ _ => ?_
  have hs₁ := D.known_mono h₁ hs
  refine (bindParameters_flows hr hs₁ (ht.mono h₁) (hargs.mono h₁)).bind fun _ m₂ h₂ _ => ?_
  refine (Flows.forM_option fun object hobject => ?_).bind fun _ m₃ h₃ _ => ?_
  · have hknown := knows_option.mp (hinit.mono (D.leads_trans h₁ h₂)) object hobject
    exact runClassStatements_flows hr (knows_handle.mp hknown) (hloose object hobject)
  · exact executeStatements_flows hr _ (D.known_mono (D.leads_trans h₂ h₃) hs₁)

/-- Only a throw or an abort gets out of a call. -/
theorem leaveFunction_flows (call : Call) (title : String) (type : TypeTree)
    {transfer : Option Transfer} (ht : D.Knows m.store transfer) :
    D.Flows raised m (leaveFunction r call title type transfer)
      (leaveFunction r' call title type transfer) := by
  unfold leaveFunction
  cases transfer with
  | none => exact Flows.pure knows_none
  | some transfer =>
    have hvalue : D.Knows m.store transfer.value := ht
    have hthrow : TransferKind.throw = .abort → transfer.value = none :=
      fun h => absurd h (by decide)
    dsimp only
    split
    · split
      · refine (Flows.lift Keeps.report).bind fun _ m₁ h₁ _ => ?_
        exact transferred_flows hr (hvalue.mono h₁) hthrow (Or.inl rfl)
      · exact transferred_flows hr hvalue hthrow (Or.inl rfl)
    · exact transferred_flows hr knows_none (fun _ => rfl) (Or.inr rfl)
    · exact Flows.pure hvalue

omit hr

variable [D.Storewise] (ha : D.Admits r r') (ho : D.Obeys r r')

include ha ho

/-- A call keeps the discipline, and only a throw or an abort gets out of it. -/
theorem callNow_flows {call : Call} (hcall : D.Knows m.store call) :
    D.Flows raised m (callNow r call) (callNow r' call) := by
  have hr := ha.minds ho
  refine Flows.assuming fun hm hopen => ?_
  obtain ⟨hfunction, hargs, hlevels, hcaller⟩ := knows_call.mp hcall
  unfold callNow
  refine Flows.get_bind ?_
  dsimp only
  split
  · refine (Flows.lift Keeps.report).bind fun _ m₁ h₁ _ => ?_
    exact transferred_flows hr knows_none (fun _ => rfl) (Or.inr rfl)
  split
  · exact Flows.pure knows_none
  rename_i c hc
  split
  · exact Flows.lift (callNative_keeps _)
  intro _ _
  refine Agree.lift_bind (ha.createNamespace _ _ (knows_handle.mpr hfunction) hm)
    fun space m₁ h₁ => ?_
  -- a scope and a frame are put in place
  have hm₁ := h₁.fits hm
  let entered : Machine := { m₁ with
    scopes := ⟨space, some call.function, call.node.map m.locationOf⟩ :: m₁.scopes
    control := m₁.control.push }
  have hentered : D.Fits entered := ⟨hm₁.holds, hm₁.frames_push, starts_free⟩
  refine Agree.lift_step (n := { m₁ with scopes := entered.scopes }) rfl ?_
  refine Agree.lift_step (n := entered) rfl ?_
  have htype := knows_typeOf hm.holds hc
  refine Agree.lift_bind (enterFunction_flows hr _ (knows_handle.mp h₁.knows) (htype.mono h₁.leads)
    (hcall.mono h₁.leads) (hlevels.filter.mono h₁.leads)
    (fun _ _ => loose_free) hentered ⟨by simp [entered, Control.push], rfl⟩) ?_
  intro _ m₂ h₂
  -- and taken away again: the machine is as it was before the call, the store aside
  refine Agree.lift_bind (Keeps.forM_option (fun object _ => ha.settle object) h₂.fits)
    fun _ m₃ h₃ => ?_
  have hm₃ := h₃.fits h₂.fits
  refine Agree.lift_bind (popScope_agrees ha true hm₃) fun _ m₄ h₄ => ?_
  let left : Machine := { m₄ with control := m₄.control.pop.2 }
  refine Agree.lift_step (n := left) rfl ?_
  have hcontrol : left.control = m.control := by
    have hframes : m₄.control.frames.tail = m.control.frames := by
      rw [h₄.control, h₃.control, h₂.below, ← h₁.control]; rfl
    show (⟨m₄.control.frames.tail⟩ : Control) = m.control
    rw [hframes]
  have hleft : D.After m () left := by
    refine ⟨h₄.fits.holds, ?_, ?_, hcontrol, knows_unit, leads_free⟩
    · exact D.leads_trans h₁.leads (D.leads_trans h₂.leads (D.leads_trans h₃.leads h₄.leads))
    · show m₄.scopes = m.scopes
      rw [h₄.scopes, h₃.scopes, h₂.scopes, ← h₁.scopes]; rfl
  have hlands := Lands.of_after (K := raised) hleft hm hopen
  refine (leaveFunction_flows (m := left) hr call _ c.type h₄.fits.current? (hleft.fits hm)
    hlands.ends.1).mono ?_
  exact fun _ _ h => hlands.trans h

/-- A deinitializer runs in a frame of its own, which is gone afterwards however it ended. -/
theorem runDeinitializer_keeps {object : Handle} (hobject : D.known m.store object) :
    D.Keeps m (runDeinitializer r object) (runDeinitializer r' object) := by
  intro hm
  have hfound := knows_matching (knows_lookup hm object "deinit" (.call []) true)
  refine Agree.get_bind ?_
  split
  · exact Agree.pure (After.refl hm knows_unit)
  rename_i function hf
  have hfunction := knows_handle.mp (knows_option.mp hfound function hf)
  let entered : Machine := { m with control := m.control.push }
  have hentered : D.Fits entered := ⟨hm.holds, hm.frames_push, starts_free⟩
  refine Agree.step (n := entered) rfl ?_
  have hcall : D.Knows m.store ({ function, levels := some object } : Call) :=
    knows_call.mpr ⟨hfunction, knows_nil, knows_handle.mpr hobject, knows_none⟩
  refine Agree.bind (ho.call hcall hentered ⟨by simp [entered, Control.push], rfl⟩)
    fun _ m₁ h₁ => ?_
  let left : Machine := { m₁ with control := m₁.control.pop.2 }
  refine Agree.step (n := left) rfl ?_
  have hcontrol : left.control = m.control := by
    show (⟨m₁.control.frames.tail⟩ : Control) = m.control
    rw [h₁.below]; rfl
  have hleft : D.After m () left :=
    ⟨h₁.fits.holds, h₁.leads, h₁.scopes, hcontrol, knows_unit, leads_free⟩
  exact (collectTransfer_keeps ha _ (hleft.fits hm)).mono fun _ _ h => hleft.trans h

end Calls

end CompositeGraph.Discipline

/-! ## Endings -/

namespace CompositeGraph

open Run Store

/-- What is left to do for a composite that has begun to die. -/
def depart (r : Rules) (h : Handle) : Run Unit := do
  let retained := (← store).live.filter fun (other, composite) =>
    other != h && composite.links.retainers.contains h
  retained.forM fun (other, _) => release r h other
  removeFromStore h

section Endings

variable {watched : Prop} {r r' : Rules} {m : Machine} {h : Handle} {P Q : Unit → Machine → Prop}

/-- A composite that lives begins to die; an object is deinitialized then. -/
theorem destroyNow_of_alive {c : Composite} (hc : m.store.get? h = some c)
    (halive : c.isAlive = true) : destroyNow r h m =
      (do if c.is .object then runDeinitializer r h
          depart r h : Run Unit) { m with store := m.store.dead h } := by
  have hstore : ∀ f : Store → Run Unit, (store >>= f) m = f m.store m := fun _ => rfl
  unfold destroyNow
  rw [hstore, hc]
  dsimp only
  rw [if_pos halive]
  rfl

/-- One that does not live is left alone, whether it is dying already or is not there. -/
theorem destroyNow_of_not_alive (hdead : ¬m.store.isAlive h = true) :
    destroyNow r h m = .ok ((), m) := by
  have hstore : ∀ f : Store → Run Unit, (store >>= f) m = f m.store m := fun _ => rfl
  unfold destroyNow
  rw [hstore]
  cases hc : m.store.get? h with
  | none => rfl
  | some c =>
    dsimp only
    rw [if_neg fun halive => hdead (isAlive_iff.mpr ⟨c, hc, halive⟩)]
    rfl

theorem destroyNow_idle (hdead : ¬m.store.isAlive h = true) (hQ : Q () m) :
    Agree watched m (destroyNow r h) (destroyNow r' h) Q :=
  .congr (destroyNow_of_not_alive hdead) (destroyNow_of_not_alive hdead) (.pure hQ)

/-- What the beginning of a death establishes and a deinitializer keeps is there
    when the composite departs. -/
theorem destroyNow_agrees (ha : m.store.isAlive h = true)
    (hstart : P () { m with store := m.store.dead h })
    (hends : Agree watched { m with store := m.store.dead h } (runDeinitializer r h)
      (runDeinitializer r' h) P)
    (hdeparts : ∀ m₁, P () m₁ → Agree watched m₁ (depart r h) (depart r' h) Q) :
    Agree watched m (destroyNow r h) (destroyNow r' h) Q := by
  obtain ⟨c, hc, halive⟩ := isAlive_iff.mp ha
  rw [Agree, destroyNow_of_alive hc halive, destroyNow_of_alive hc halive]
  show Agree watched { m with store := m.store.dead h } _ _ Q
  split
  · exact hends.bind fun _ m₁ h₁ => hdeparts m₁ h₁
  · exact hdeparts _ hstart

/-- What is there is freed, with a report or without. -/
theorem removeFromStore_eq (hthere : m.store.contains h = true) :
    ∃ reports, removeFromStore h m = .ok ((), { m with store := m.store.free h, reports }) := by
  obtain ⟨c, hc⟩ := contains_iff.mp hthere
  have hremove : removeFromStore h m =
      (if c.links.retainers.any fun x => ((m.store.free h).get? x).any Composite.isAlive then
        report .warning none (danglingMessage h) else pure ())
        { m with store := m.store.free h } := by
    have hstore : ∀ f : Store → Run Unit, (store >>= f) m = f m.store m := fun _ => rfl
    unfold removeFromStore
    rw [hstore, hc]
    rfl
  rw [hremove]
  split
  · exact ⟨_, rfl⟩
  · exact ⟨_, rfl⟩

end Endings

end CompositeGraph
