/-
  LEFTOVERS: what a module leaves behind.

  After each statement all that it created is looked at, and so is whatever a list of retainers, a
  scope or a transfer lets go.  There is one thing that nobody looks at: what a call hands on, or
  the object that it ran on, once its frame is gone.  If that is older than the statement of the
  module under way and nothing holds it, it stays for good unless somebody takes it; and so does
  what a deinitializer made while the statement was being cleaned up after.

  A watch that inspects each call when it is over finds all that is left stranded like this.
  Whatever else a module leaves is within reach of the outermost namespace.

    1. STATEMENTS.  Frames, scopes and statements, after which all is accounted for.
    2. TIDY.        The discipline of what runs within a statement.
    3. CALLS.       What a call may leave.
    4. THE WATCH.   `thrifty`, and the induction over its depth.
    5. THE OUTSET.  What is there when the first statement begins hangs on the outermost namespace.
    6. MODULES.     What is left is within reach, or hangs on what a call left stranded.
-/
import CompositeGraph.Proofs.Collection
import CompositeGraph.Proofs.Holding

namespace CompositeGraph

open Run Discipline Store

/-! ## Statements -/

/-- What the rules have to do, in stores of a size: all is accounted for but what hangs on a `K`,
    and but what was created while a node was evaluated. -/
structure Obliges (K : Handle → Prop) (size : Nat) (r r' : Rules) : Prop where
  budget : r'.budget = r.budget
  eval : ∀ m node scope, size ≤ m.store.size → Discipline.IsOpen m.control →
    Agree True m (r.eval node scope).outcome (r'.eval node scope).outcome
      fun _ => Accounts (fun h => K h ∨ m.store.size ≤ h.index) m
  evalLink : ∀ m node scope, size ≤ m.store.size → Discipline.IsOpen m.control →
    Agree True m (r.evalLink node scope).outcome (r'.evalLink node scope).outcome
      fun _ => Accounts (fun h => K h ∨ m.store.size ≤ h.index) m
  call : Answers K size r r'
  destroy : Disposes K size r r'

section Statements

variable {K : Handle → Prop} {size : Nat} {r r' : Rules} {m : Machine}

/-- From `m` to where the innermost frame holds `new`, and what else it held is held, hangs on a
    `K`, or is gone. -/
structure Replaces (K : Handle → Prop) (new : Option Transfer) (rest : List (Option Transfer))
    (m m' : Machine) : Prop where
  accounts : Accounts K m m'
  frames : m'.control.frames = new :: rest
  held : ∀ Q : Handle → Prop, (∀ h, K h → Q h) →
    m.Accounted (fun x => Q x ∨ x ∈ Value.optionHandles (new.bind (·.value))) → m'.Accounted Q

theorem Replaces.of_settles {m₁ m' : Machine} {old new : Option Transfer}
    {rest : List (Option Transfer)}
    (h : Settles K (· ∈ Value.optionHandles (old.bind (·.value))) m₁ m')
    (hframes : m.control.frames = old :: rest)
    (hstore : m₁.store = m.store) (hscopes : m₁.scopes = m.scopes)
    (hcontrol : m₁.control = ⟨new :: rest⟩)
    (hnew : ∀ t, new = some t → t.kind = some .abort → t.value = none) :
      Replaces K new rest m m' := by
  have hframes' : m'.control.frames = new :: rest := by rw [h.control, hcontrol]
  have hheld : ∀ Q : Handle → Prop, (∀ h, K h → Q h) →
      m.Accounted (fun x => Q x ∨ x ∈ Value.optionHandles (new.bind (·.value))) → m'.Accounted Q :=
    fun Q hQ hm => h.accounted Q hQ ((hm.replaceFrame hframes hnew).of_same hstore hscopes hcontrol)
  refine ⟨⟨hstore ▸ h.follows, h.scopes.trans hscopes, ?_, fun _ => ?_, fun Q hQ hm => ?_⟩,
    hframes', hheld⟩
  · rw [hframes', hframes]
    rfl
  · rw [hframes']
    exact List.cons_ne_nil _ _
  · exact hheld Q hQ (hm.mono fun _ => .inl)

/-- The innermost frame gets another transfer, and what came out of it is looked at. -/
theorem replaced_accounts (hd : Disposes K size r r') (hsize : size ≤ m.store.size)
    {change : Control → Option Transfer × Control} (new : Option Transfer) {old : Option Transfer}
    {rest : List (Option Transfer)} (hframes : m.control.frames = old :: rest)
    (hchange : change m.control = (old, ⟨new :: rest⟩))
    (hnew : ∀ t, new = some t → t.kind = some .abort → t.value = none) :
    Agree True m (withControl change >>= collectTransfer r)
      (withControl change >>= collectTransfer r')
      fun _ => Replaces K new rest m := by
  have hwith : withControl change m = .ok (old, { m with control := ⟨new :: rest⟩ }) := by
    show Except.ok ((change m.control).1, { m with control := (change m.control).2 }) = _
    rw [hchange]
  refine Agree.step hwith ?_
  exact (collectTransfer_settles (m := { m with control := ⟨new :: rest⟩ }) hd hsize _).mono
    fun _ _ h => .of_settles h hframes rfl rfl rfl hnew

/-- A statement is run and cleaned up after: whatever was created meanwhile is looked at. -/
theorem executeStatement_accounts (ho : Obliges K size r r') (hsize : size ≤ m.store.size)
    (hopen : IsOpen m.control) (node : Node) (scope : Handle) (tail : Bool) :
    Agree True m (executeStatement r node scope tail).outcome
      (executeStatement r' node scope tail).outcome
      fun outcome m' => Accounts K m m' ∧
        (tail = false → ∀ value, outcome = .ok value →
          m'.control.frames = none :: m.control.frames.tail) := by
  -- what was created, and what came out of the frame, is looked at last
  have hcollect :
    ∀ (displaced : Option Transfer) (outcome : Except Unwind (Option Value)) (m₂ : Machine),
      size ≤ m₂.store.size →
      Agree True m₂ (do collectFrom r m.store.size; collectTransfer r displaced; return outcome)
        (do collectFrom r' m.store.size; collectTransfer r' displaced; return outcome)
        fun o m' => o = outcome ∧ Settles K (fun x => m.store.size ≤ x.index ∨
          x ∈ Value.optionHandles (displaced.bind (·.value))) m₂ m' := by
    intro displaced outcome m₂ hsize₂
    refine (collectFrom_settles ho.destroy hsize₂ m.store.size).bind fun _ m₃ h₃ => ?_
    have hsize₃ := Nat.le_trans hsize₂ h₃.follows.size
    refine (collectTransfer_settles ho.destroy hsize₃ displaced).bind fun _ m₄ h₄ => ?_
    exact Agree.pure ⟨rfl, h₃.trans h₄⟩
  refine Agree.store_bind ((ho.eval m node scope hsize hopen).bind fun outcome m₁ h₁ => ?_)
  have hsize₁ := Nat.le_trans hsize h₁.follows.size
  have haccounted : ∀ Q : Handle → Prop, (∀ h, K h → Q h) → m.Accounted Q →
      m₁.Accounted fun x => Q x ∨ m.store.size ≤ x.index := fun Q hQ hm =>
    h₁.accounted _ (fun x hx => hx.imp_left (hQ x)) (hm.mono fun _ => .inl)
  cases outcome with
  | error u =>
    refine (Agree.pure (Q := fun t m' => t = none ∧ m₁ = m') ⟨rfl, rfl⟩).bind ?_
    rintro _ _ ⟨rfl, rfl⟩
    refine (hcollect none (.error u) m₁ hsize₁).mono ?_
    rintro _ m' ⟨rfl, h⟩
    refine ⟨⟨h₁.follows.trans h.follows, h.scopes.trans h₁.scopes, ?_, ?_, fun Q hQ hm => ?_⟩,
      fun _ _ hok => ?_⟩
    · rw [h.control]
      exact h₁.below
    · rw [h.control]
      exact h₁.framed
    · exact h.accounted Q hQ ((haccounted Q hQ hm).mono fun x hx => hx.imp_right .inl)
    · cases hok
  | ok value =>
    obtain ⟨old, rest, hframes⟩ := List.exists_cons_of_ne_nil (h₁.framed hopen.1)
    -- the value stays in the frame behind the last statement only
    let new : Option Transfer := if tail then some ⟨none, value⟩ else none
    have hrest : rest = m.control.frames.tail := by
      rw [← h₁.below, hframes]
      rfl
    have hchange : (if tail then m₁.control.set value none else m₁.control.take) =
      (old, ⟨new :: rest⟩) := by
      cases tail with
      | true => simp [new, Control.set, hframes]
      | false => simp [new, Control.take, hframes]
    have hnew : ∀ t, new = some t → t.kind = some .abort → t.value = none := by
      intro t ht hkind
      simp only [new] at ht
      split at ht
      · cases ht
        cases hkind
      · cases ht
    have hwith : withControl (fun control =>
      if tail then control.set value none else control.take) m₁ =
        .ok (old, { m₁ with control := ⟨new :: rest⟩ }) := by
      show Except.ok ((if tail then m₁.control.set value none else m₁.control.take).1,
        { m₁ with control := (if tail then m₁.control.set value none else m₁.control.take).2 }) = _
      rw [hchange]
    refine Agree.step hwith ?_
    refine (hcollect _ (.ok value) { m₁ with control := ⟨new :: rest⟩ } hsize₁).mono ?_
    rintro _ m' ⟨rfl, h⟩
    have hcontrol : m'.control.frames = new :: rest := congrArg Control.frames h.control
    refine ⟨⟨h₁.follows.trans h.follows, h.scopes.trans h₁.scopes, ?_, fun _ => ?_,
      fun Q hQ hm => ?_⟩, ?_⟩
    · rw [hcontrol, List.tail_cons, hrest]
    · rw [hcontrol]
      exact List.cons_ne_nil _ _
    · have hm₁ := ((haccounted Q hQ hm).mono fun _ => .inl).replaceFrame hframes hnew
      exact h.accounted Q hQ (hm₁.mono fun _ => or_assoc.mp)
    · rintro rfl _ _
      rw [hcontrol, hrest]
      rfl

/-- A scope is left, and its namespace looked at or known to be loose. -/
theorem popScope_accounts (hd : Disposes K size r r') (hsize : size ≤ m.store.size) {scope : Scope}
    {rest : List Scope} (hscopes : m.scopes = scope :: rest) {collect : Bool}
    (hloose : collect = true ∨ K scope.namespaceHandle) :
    Agree True m (popScope r collect) (popScope r' collect) fun _ m' =>
      m.store.Follows m'.store ∧ m'.scopes = rest ∧ m'.control = m.control ∧
        ∀ Q : Handle → Prop, (∀ h, K h → Q h) → m.Accounted Q → m'.Accounted Q := by
  refine Agree.get_bind ?_
  rw [hscopes]
  refine Agree.step (n := { m with scopes := rest }) rfl ?_
  cases collect with
  | true =>
    refine (destroyIfReleased_settles (m := { m with scopes := rest }) hd hsize _).mono
      fun _ m' h => ?_
    exact ⟨h.follows, h.scopes, h.control, fun Q hQ hm => h.accounted Q hQ (hm.popScope hscopes)⟩
  | false =>
    refine Agree.pure ⟨.refl _, rfl, rfl, fun Q hQ hm => (hm.popScope hscopes).mono ?_⟩
    rintro x (hx | rfl)
    · exact hx
    · exact hQ _ (hloose.resolve_left Bool.false_ne_true)

end Statements

/-! ## Tidy -/

/-- The discipline of runs in stores of a size, after which all is accounted for but what hangs on a
    `K`.  A run may be broken off. -/
def tidy (K : Handle → Prop) (size : Nat) : Discipline :=
  { bare with
    regime :=
      { starts := fun m => size ≤ m.store.size
        leads := Accounts K
        loose := K
        watched := True
        same := Accounts.of_same
        trans := fun h h' => h.trans h'
        again := fun hm h => Nat.le_trans hm h.follows.size } }

theorem knows_tidy {K : Handle → Prop} {size : Nat} {α : Type} [Held α] {s : Store} {a : α} :
    (tidy K size).Knows s a := knows_of_lax id fun _ => trivial

theorem fits_tidy {K : Handle → Prop} {size : Nat} {m : Machine} (hsize : size ≤ m.store.size) :
    (tidy K size).Fits m := ⟨trivial, fun _ _ => knows_tidy, hsize⟩

/-- New composites get slots that nothing was in. -/
theorem Store.Follows.add {s : Store} (title : Option String) (type : TypeTree) :
    s.Follows (s.add (.fresh title type)).1 where
  size := by
    rw [size_add]
    exact Nat.le_succ _
  dying h := by
    by_cases hnew : h = s.next
    · have halive : (Composite.fresh title type).isAlive = true := by
        unfold Composite.fresh Composite.isAlive
        dsimp only
        split <;> rfl
      rw [hnew, isDying, isDying, get?_add_self, get?_next]
      simp [halive]
    · rw [isDying, isDying, get?_add_ne _ hnew]
  retained d b _ hmem := by
    by_cases hnew : b = s.next
    · rw [hnew, retainers, get?_add_self] at hmem
      cases hmem
    · rwa [retainers, get?_add_ne _ hnew] at hmem

section Tidy

variable {K : Handle → Prop} {size : Nat} {r r' : Rules} {m : Machine}

/-- Store work that is accounted for. -/
theorem keeps_tidy {x y : Run Unit} {A : Handle → Prop}
    (h : size ≤ m.store.size → Agree True m x y fun _ => Settles K A m) :
    (tidy K size).Keeps m x y := fun hm =>
  (h hm.starts).mono fun _ _ h => ⟨trivial, trivial, h.scopes, h.control, knows_tidy, h.accounts⟩

/-- A flow that is accounted for, and whose double is a flow. -/
theorem flows_tidy {α : Type} [Held α] {L : TransferKind → Prop} {x y : Flow α}
    (hy : bare.Flows L m y y)
    (h : size ≤ m.store.size → IsOpen m.control → Agree True m x.outcome y.outcome fun _ =>
      Accounts K m) :
    (tidy K size).Flows L m x y := by
  intro hm hopen
  refine (h hm.starts hopen).along fun o m' hrun haccounts => ?_
  have hlands := (hy (fits_bare m) hopen).post hrun
  refine ⟨fits_tidy (Nat.le_trans hm.starts haccounts.follows.size), trivial,
    hlands.scopes, hlands.below, ?_, haccounts⟩
  cases o with
  | ok a => exact ⟨hlands.ends.1, knows_tidy⟩
  | error u => exact hlands.ends

/-- Where everything from a slot on is loose, the changes that operations are made
    of are accounted for. -/
theorem grants_tidy (hd : Disposes K size r r') (hnew : ∀ h, size ≤ h.index → K h) :
    (tidy K size).Grants r r' where
  known _ _ := trivial
  amend {m f} h hf hretainers _ := by
    refine fun _ => Agree.modifyStore ⟨trivial, trivial, rfl, rfl, knows_tidy, ?_⟩
    have hlife := fun c => (hf c).isAlive
    exact ⟨.modify hlife hretainers, rfl, rfl, id, fun Q _ hm => hm.amend h hlife hretainers⟩
  assign {m h c} slot value _ _ := by
    refine fun _ => Agree.modifyStore ⟨trivial, trivial, rfl, rfl, knows_tidy, ?_⟩
    have hretainers : ∀ c : Composite, (c.setSlot slot value).links.retainers = c.links.retainers :=
      fun c => by
      cases slot <;> rfl
    exact ⟨.modify (fun _ => rfl) hretainers, rfl, rfl, id, fun Q _ hm =>
      hm.amend h (fun _ => rfl) hretainers⟩
  add {m} title type _ := by
    intro hm
    have hnext : K m.store.next := hnew _ hm.starts
    have hadds : Accounts K m { m with store := (m.store.add (.fresh title type)).1 } :=
      ⟨.add title type, rfl, rfl, id, fun Q hQ hm => hm.add (hQ _ hnext)⟩
    exact Agree.of_eq rfl ⟨⟨trivial, trivial, rfl, rfl, knows_tidy, hadds⟩, hnext⟩
  retainOrRelease a b := keeps_tidy fun hsize => retainOrRelease_settles hd hsize a b

/-- The innermost frame has got another transfer. -/
theorem Replaces.reaches {new : Option Transfer} {rest : List (Option Transfer)} {m' : Machine}
    (h : Replaces K new rest m m') (hsize : size ≤ m.store.size) {control : Control}
    (hcontrol : control = ⟨new :: rest⟩) : (tidy K size).Reaches m m.scopes control m' where
  fits := fits_tidy (Nat.le_trans hsize h.accounts.follows.size)
  leads := trivial
  scopes := h.accounts.scopes
  control := by
    rw [hcontrol, ← h.frames]
  follows := h.accounts

/-- Then all that is asked of runs within a statement is done. -/
theorem minds_tidy (ho : Obliges K size r r') (hb : bare.Minds r' r')
    (hnew : ∀ h, size ≤ h.index → K h) : (tidy K size).Minds r r' where
  toServes := (grants_tidy ho.destroy hnew).serves
  budget := ho.budget
  eval node _ _ := flows_tidy (hb.eval node trivial) fun hsize hopen =>
    (ho.eval _ node _ hsize hopen).mono
    fun _ _ h => h.mono fun x hx => hx.elim id fun hx => hnew x (Nat.le_trans hsize hx)
  evalLink node _ _ := flows_tidy (hb.evalLink node trivial) fun hsize hopen =>
    (ho.evalLink _ node _ hsize hopen).mono
    fun _ _ h => h.mono fun x hx => hx.elim id fun hx => hnew x (Nat.le_trans hsize hx)
  call {_ c} _ := flows_tidy (hb.call knows_bare) fun hsize hopen => ho.call _ c hsize hopen
  setTransfer {m value k} hkind _ hm hframe := by
    obtain ⟨old, rest, hframes⟩ := List.exists_cons_of_ne_nil hframe
    have hset : m.control.set value (some k) =
      (old, ⟨some ⟨some k, value⟩ :: rest⟩) := by rw [Control.set, hframes]
    refine (replaced_accounts ho.destroy hm.starts (some ⟨some k, value⟩) hframes hset ?_).mono
      fun _ _ h => ?_
    · rintro _ ⟨⟩ habort
      exact hkind (Option.some.inj habort)
    · exact h.reaches hm.starts (congrArg Prod.snd hset)
  resetTransfer {m} hm hframe := by
    obtain ⟨old, rest, hframes⟩ := List.exists_cons_of_ne_nil hframe
    have htake : m.control.take = (old, ⟨none :: rest⟩) := by rw [Control.take, hframes]
    refine (replaced_accounts ho.destroy hm.starts none hframes htake ?_).mono fun _ _ h => ?_
    · rintro _ ⟨⟩
    · exact h.reaches hm.starts (congrArg Prod.snd htake)
  withScope {_ _ L m body body'} scope collect hloose hbody := by
    intro hm hopen
    refine Agree.step (n := { m with scopes := scope :: m.scopes }) rfl ?_
    refine (hbody { m with scopes := scope :: m.scopes } rfl (fits_tidy hm.starts) hopen).bind
      fun outcome m₁ h₁ => ?_
    have hsize₁ : size ≤ m₁.store.size := h₁.fits.starts
    refine (popScope_accounts ho.destroy hsize₁ h₁.scopes hloose).bind ?_
    rintro _ m₂ ⟨hfollows, hscopes, hcontrol, haccounted⟩
    have hbelow : m₂.control.frames.tail = m.control.frames.tail := by
      rw [hcontrol]
      exact h₁.below
    refine Agree.pure ⟨fits_tidy (Nat.le_trans hsize₁ hfollows.size), trivial, hscopes, hbelow,
      h₁.ends.mono trivial hcontrol,
      ⟨h₁.follows.follows.trans hfollows, hscopes, hbelow, ?_, fun Q hQ hm => ?_⟩⟩
    · rw [hcontrol]
      exact h₁.follows.framed
    · exact haccounted Q hQ (h₁.follows.accounted Q hQ (hm.pushScope scope))
  executeStatement node _ tail _ :=
    flows_tidy (hb.executeStatement node tail trivial) fun hsize hopen =>
      (executeStatement_accounts ho hsize hopen node _ tail).mono fun _ _ h => h.1

end Tidy

/-! ## Calls -/

/-- Composites that a call hands on. -/
def handedOn : Except Unwind (Option Value) → List Handle
  | .ok value => Value.optionHandles value
  | .error _ => []

/-- What nobody looks at again once a call is over: the object that it ran on, and
    what it hands on. -/
def Call.leaves (call : Call) (outcome : Except Unwind (Option Value)) : List Handle :=
  call.levels.toList ++ handedOn outcome

section Calls

variable {K K' : Handle → Prop} {size : Nat} {r r' : Rules} {m : Machine}

theorem Obliges.mono (ho : Obliges K size r r') (hK : ∀ h, K h → K' h) : Obliges K' size r r' where
  budget := ho.budget
  eval m node scope hsize hopen := (ho.eval m node scope hsize hopen).mono fun _ _ h =>
    h.mono fun x hx => hx.imp_left (hK x)
  evalLink m node scope hsize hopen := (ho.evalLink m node scope hsize hopen).mono fun _ _ h =>
    h.mono fun x hx => hx.imp_left (hK x)
  call m c hsize hopen := (ho.call m c hsize hopen).mono fun _ _ h => h.mono hK
  destroy m h hsize := (ho.destroy m h hsize).mono fun _ _ h =>
    { h with accounted := fun Q hQ => h.accounted Q fun x hx => hQ x (hK x hx) }

/-- From `m`, where the composites in a value hang on themselves, to where those
    that are handed on do. -/
structure HandsOn (K : Handle → Prop) (m : Machine) (value : Option Value)
    (outcome : Except Unwind (Option Value)) (m' : Machine) : Prop where
  accounts : Accounts K m m'
  handed : ∀ Q : Handle → Prop, (∀ h, K h → Q h) →
    m.Accounted (fun x => Q x ∨ x ∈ Value.optionHandles value) →
    m'.Accounted fun x => Q x ∨ x ∈ handedOn outcome

theorem HandsOn.value (K : Handle → Prop) (m : Machine) (value : Option Value) :
    HandsOn K m value (.ok value) m :=
  ⟨.of_same rfl rfl rfl, fun _ _ hm => hm⟩

/-- A value is put into the frame of the caller, which holds it. -/
theorem raised_accounts (ho : Obliges K size r r') (hsize : size ≤ m.store.size)
    (hframe : m.control.frames ≠ [])
    {value : Option Value} {kind : TransferKind} (hkind : kind = .abort → value = none) :
    Agree True m
      (do (setTransfer r value (some kind) : Run Unit); Flow.unwind : Flow (Option Value)).outcome
      (do (setTransfer r' value (some kind) : Run Unit); Flow.unwind : Flow (Option Value)).outcome
      (HandsOn K m value) := by
  obtain ⟨old, rest, hframes⟩ := List.exists_cons_of_ne_nil hframe
  refine Agree.lift_bind
    (replaced_accounts ho.destroy hsize (some ⟨some kind, value⟩) hframes ?_ ?_) ?_
  · rw [Control.set, hframes]
  · rintro _ ⟨⟩ habort
    exact hkind (Option.some.inj habort)
  · exact fun _ _ h => Agree.pure ⟨h.accounts, fun Q hQ hm => (h.held Q hQ hm).mono fun _ => .inl⟩

/-- What was in the frame of a call is handed on, or put into the frame of the caller; an abort
    holds nothing. -/
theorem leaveFunction_accounts (ho : Obliges K size r r') (hsize : size ≤ m.store.size)
    (hframe : m.control.frames ≠ []) (call : Call) (title : String) (type : TypeTree)
    (transfer : Option Transfer) :
    Agree True m (leaveFunction r call title type transfer).outcome
      (leaveFunction r' call title type transfer).outcome
      fun outcome m' => Accounts K m m' ∧
        ((∀ t, transfer = some t → t.kind = some .abort → t.value = none) →
        HandsOn K m (transfer.bind (·.value)) outcome m') := by
  unfold leaveFunction
  cases transfer with
  | none => exact Agree.pure ⟨.of_same rfl rfl rfl, fun _ => .value K m none⟩
  | some transfer =>
    dsimp only
    split
    · have hthrow : ∀ m₁ : Machine,
        m₁.store = m.store → m₁.scopes = m.scopes → m₁.control = m.control →
          Agree True m₁
            (do (setTransfer r transfer.value (some .throw) : Run Unit); Flow.unwind :
              Flow (Option Value)).outcome
            (do (setTransfer r' transfer.value (some .throw) : Run Unit); Flow.unwind :
              Flow (Option Value)).outcome
            (HandsOn K m transfer.value) := by
        intro m₁ hstore hscopes hcontrol
        have hthrown : TransferKind.throw = .abort → transfer.value = none :=
          fun h => absurd h (by decide)
        refine (raised_accounts ho (hstore ▸ hsize) (hcontrol ▸ hframe) hthrown).mono
          fun _ _ h => ?_
        exact ⟨(Accounts.of_same hstore hscopes hcontrol).trans h.accounts, fun Q hQ hm =>
          h.handed Q hQ (hm.of_same hstore hscopes hcontrol)⟩
      split
      · refine Agree.lift_bind (Agree.of_eq (Q := fun _ m' => m'.store = m.store ∧
          m'.scopes = m.scopes ∧ m'.control = m.control) rfl ⟨rfl, rfl, rfl⟩) ?_
        rintro _ m₁ ⟨hstore, hscopes, hcontrol⟩
        exact (hthrow m₁ hstore hscopes hcontrol).mono fun _ _ h => ⟨h.accounts, fun _ => h⟩
      · exact (hthrow m rfl rfl rfl).mono fun _ _ h => ⟨h.accounts, fun _ => h⟩
    · next habort =>
      refine (raised_accounts ho hsize hframe fun _ => rfl).mono fun _ _ h =>
        ⟨h.accounts, fun hnone => ?_⟩
      rw [Option.bind_some, hnone transfer rfl habort]
      exact h
    · exact Agree.pure ⟨.of_same rfl rfl rfl, fun _ => .value K m transfer.value⟩

/-- A call leaves nothing but the object that it ran on and what it hands on. -/
theorem callNow_accounts (ho : Obliges K size r r') (hb : bare.Minds r' r')
    (hnew : ∀ h, size ≤ h.index → K h)
    (hsize : size ≤ m.store.size) (hopen : IsOpen m.control) (call : Call) :
    Agree True m (callNow r call).outcome (callNow r' call).outcome
      fun outcome => Accounts (fun h => K h ∨ h ∈ call.leaves outcome) m := by
  -- the object that the call runs on counts as loose all along
  let K' : Handle → Prop := fun h => K h ∨ h ∈ call.levels.toList
  have ho' : Obliges K' size r r' := ho.mono fun _ => .inl
  have hr : (tidy K' size).Minds r r' := minds_tidy ho' hb fun h hh => .inl (hnew h hh)
  have hm : (tidy K' size).Fits m := fits_tidy hsize
  have hflow : ∀ {x y : Flow (Option Value)}, (tidy K' size).Flows any m x y →
      Agree True m x.outcome y.outcome fun outcome =>
        Accounts (fun h => K h ∨ h ∈ call.leaves outcome) m :=
    fun h => (h hm hopen).mono fun _ _ h => h.follows.mono fun _ hx =>
      hx.imp_right (List.mem_append_left _)
  unfold callNow
  refine Agree.flow_get_bind ?_
  dsimp only
  split
  · exact hflow ((Flows.lift Keeps.report).bind fun _ _ _ _ =>
      transferred_flows hr knows_none (fun _ => rfl) trivial)
  split
  · exact hflow (Flows.pure knows_none)
  next composite _ =>
  split
  · exact hflow (Flows.lift (callNative_keeps _))
  refine Agree.lift_bind (hr.createNamespace _ _ knows_tidy hm) fun space m₁ h₁ => ?_
  have hsize₁ : size ≤ m₁.store.size := Nat.le_trans hsize h₁.follows.follows.size
  -- a scope and a frame are put in place
  let entered : Machine := { m₁ with
    scopes := ⟨space, some call.function, call.node.map m.locationOf⟩ :: m₁.scopes
    control := m₁.control.push }
  refine Agree.lift_step (n := { m₁ with scopes := entered.scopes }) rfl ?_
  refine Agree.lift_step (n := entered) rfl ?_
  refine Agree.lift_bind
    (enterFunction_flows (m := entered) hr _ trivial knows_tidy knows_tidy knows_tidy ?_
    (fits_tidy hsize₁) ⟨by simp [entered, Control.push], rfl⟩) fun _ m₂ h₂ => ?_
  · intro object hobject
    exact Or.inr (Option.mem_toList.mpr (Option.eq_some_of_filter_eq_some hobject))
  refine Agree.lift_bind (Keeps.forM_option (fun object _ => hr.settle object) h₂.fits)
    fun _ m₃ h₃ => ?_
  have hsize₃ : size ≤ m₃.store.size := (h₃.fits h₂.fits).starts
  have h₃ : Accounts K' entered m₃ := h₂.follows.trans h₃.follows
  -- and taken away again
  refine Agree.lift_bind (popScope_accounts ho'.destroy hsize₃ h₃.scopes (.inl rfl)) ?_
  rintro _ m₄ ⟨hfollows₄, hscopes₄, hcontrol₄, haccounted₄⟩
  let left : Machine := { m₄ with control := m₄.control.pop.2 }
  have hframes : left.control.frames = m₁.control.frames := by
    show m₄.control.frames.tail = _
    rw [hcontrol₄, h₃.below]
    rfl
  refine Agree.lift_step (n := left) rfl ?_
  have hframe₁ : left.control.frames ≠ [] := by
    rw [hframes]
    exact h₁.follows.framed hopen.1
  refine (leaveFunction_accounts (m := left) ho' (Nat.le_trans hsize₃ hfollows₄.size) hframe₁
    call _ composite.type m₄.control.current?).mono ?_
  rintro outcome m' ⟨h₅, hhands⟩
  refine ⟨((h₁.follows.follows.trans h₃.follows).trans hfollows₄).trans h₅.follows, ?_, ?_, fun _ =>
    h₅.framed hframe₁, ?_⟩
  · exact h₅.scopes.trans (hscopes₄.trans h₁.follows.scopes)
  · rw [h₅.below, hframes, h₁.follows.below]
  · intro Q hQ hm
    have hQ' : ∀ h, K' h → Q h := fun h hh => hQ h (hh.imp_right (List.mem_append_left _))
    have hm₁ := h₁.follows.accounted Q hQ' hm
    have hm₃ := h₃.accounted Q hQ' (hm₁.pushScope _).pushFrame
    have hm₄ := haccounted₄ Q hQ' hm₃
    have habort : ∀ t, m₄.control.current? = some t → t.kind = some .abort → t.value = none :=
      fun t ht => hm₄.aborts t (List.mem_of_mem_head? (Option.join_eq_some_iff.mp ht))
    refine ((hhands habort).handed Q hQ' hm₄.popFrame).mono fun x hx => ?_
    exact hx.elim id fun hx => hQ x (.inr (List.mem_append_right _ hx))

end Calls

/-! ## The watch -/

/-- Whether a composite may be left to itself: it is among those that are spared, or it got its slot
    since a statement began, which is to be cleaned up after. -/
def mayStay (spared : List Handle) (since : Option Nat) (h : Handle) : Bool :=
  spared.contains h || since.any (· ≤ h.index)

/-- Whether one of the composites is there, but neither held nor such that it may be
    left to itself. -/
def Machine.strands (m : Machine) (spared : List Handle) (since : Option Nat)
    (handles : List Handle) : Bool :=
  handles.any fun h => m.store.contains h && !m.store.reaches m.holders h && !mayStay spared since h

/-- A call under inspection: it is broken off when something is left stranded that was created while
    it ran, that it hands on or that it ran on. -/
def inspected (spared : List Handle) (since : Option Nat) (call : Call) (size : Nat)
    (flow : Flow (Option Value)) : Flow (Option Value) := ExceptT.mk do
  let outcome ← flow.outcome
  let machine ← get
  let created := (machine.store.live.map (·.1)).filter (size ≤ ·.index)
  if machine.strands spared since (call.leaves outcome ++ created) then refused else return outcome

/-- The rules under a watch that inspects each call.  What is created within a statement of a module
    may be left to itself; `since` is the number of slots when that statement began,
    if one is under way. -/
def thrifty (spared : List Handle) : (depth : Nat) → (since : Option Nat) → Rules
  | 0, _ => rules 0
  | depth + 1, since =>
    { budget := depth
      eval := fun node scope => do
        let m ← get
        evalNow (thrifty spared depth (some (since.getD m.store.size))) node scope
      evalLink := fun node scope => do
        let m ← get
        linkNow (thrifty spared depth (some (since.getD m.store.size))) node scope
      call := fun call => do
        let m ← get
        inspected spared since call m.store.size
          (callNow (thrifty spared depth (some (since.getD m.store.size))) call)
      destroy := fun handle => destroyNow (thrifty spared depth since) handle }

/-- A run that looks at the machine first, and a double that need not. -/
theorem Agree.of_get {α : Type} {watched : Prop} {m : Machine} {f : Machine → Run α} {y : Run α}
    {Q : α → Machine → Prop} (h : Agree watched m (f m) y Q) : Agree watched m (get >>= f) y Q := h

/-- The same for a flow. -/
theorem Agree.of_looking {α : Type} {watched : Prop} {m : Machine} {f : Machine → Flow α}
    {y : Run (Except Unwind α)} {Q : Except Unwind α → Machine → Prop}
    (h : Agree watched m (f m).outcome y Q) : Agree watched m (get >>= f : Flow α).outcome y Q := h

section Watch

variable {spared : List Handle} {since : Option Nat} {m : Machine}

theorem mayStay_iff {h : Handle} :
    mayStay spared since h = true ↔ h ∈ spared ∨ ∃ slot, since = some slot ∧ slot ≤ h.index := by
  rw [mayStay, Bool.or_eq_true, List.contains_iff_mem, Option.any_eq_true]
  simp only [decide_eq_true_eq]

/-- Where nothing is stranded, each of the composites is held or may be left to itself. -/
theorem anchored_of_not_strands {handles : List Handle}
    (h : m.strands spared since handles = false) {x : Handle}
    (hx : x ∈ handles) (hthere : m.store.contains x = true) :
    m.store.Anchored (fun y => y ∈ m.holders ∨ mayStay spared since y = true) x := by
  have hx := List.any_eq_false.mp h x hx
  by_cases hheld : m.store.reaches m.holders x = true
  · exact .of_kept (reaches_iff.mp hheld) fun _ => .inl
  · refine .base (.inr ?_)
    simpa [hthere, hheld] using hx

/-- A call that passes the inspection leaves nothing but what is held or may be left to itself. -/
theorem inspected_accounts {K : Handle → Prop} {call : Call} {x y : Flow (Option Value)}
    (hcall : Agree True m x.outcome y.outcome fun outcome =>
      Accounts (fun h => K h ∨ h ∈ call.leaves outcome) m)
    (hstay : ∀ h, K h → mayStay spared since h = true ∨ m.store.size ≤ h.index) :
    Agree True m (inspected spared since call m.store.size x).outcome y.outcome
      fun _ => Accounts (fun h => mayStay spared since h = true) m := by
  have hpure : y.outcome = (y.outcome >>= fun outcome => Pure.pure outcome) := (bind_pure _).symm
  rw [hpure]
  refine Agree.bind hcall fun outcome m₁ h₁ => Agree.of_get ?_
  dsimp only
  split
  · exact .inl ⟨trivial, rfl⟩
  · rename_i hleaves
    have hleaves := Bool.eq_false_iff.mpr hleaves
    refine Agree.pure (h₁.narrow fun x hx hthere => ?_)
    -- all that the call created is looked at, and so is what it left
    have hcreated : m.store.size ≤ x.index →
      x ∈ (m₁.store.live.map (·.1)).filter (m.store.size ≤ ·.index) := by
      intro hx
      obtain ⟨c, hc⟩ := contains_iff.mp hthere
      exact List.mem_filter.mpr ⟨List.mem_map.mpr ⟨(x, c), mem_live.mpr hc, rfl⟩, decide_eq_true hx⟩
    rcases hx with hx | hx
    · rcases hstay x hx with hx | hx
      · exact .base (.inr hx)
      · exact anchored_of_not_strands hleaves (List.mem_append_right _ (hcreated hx)) hthere
    · exact anchored_of_not_strands hleaves (List.mem_append_left _ hx) hthere

theorem budget_thrifty (spared : List Handle) (depth : Nat) (since : Option Nat) :
    (thrifty spared (depth + 1) since).budget = depth := rfl

theorem eval_thrifty (spared : List Handle) (depth : Nat) (since : Option Nat) (node : Node)
    (scope : Handle) : (thrifty spared (depth + 1) since).eval node scope = (do
      let m ← get
      evalNow (thrifty spared depth (some (since.getD m.store.size))) node scope : Flow _) := rfl

theorem evalLink_thrifty (spared : List Handle) (depth : Nat) (since : Option Nat) (node : Node)
    (scope : Handle) : (thrifty spared (depth + 1) since).evalLink node scope = (do
      let m ← get
      linkNow (thrifty spared depth (some (since.getD m.store.size))) node scope : Flow _) := rfl

theorem call_thrifty (spared : List Handle) (depth : Nat) (since : Option Nat) (call : Call) :
    (thrifty spared (depth + 1) since).call call = (do
      let m ← get
      inspected spared since call m.store.size
        (callNow (thrifty spared depth (some (since.getD m.store.size))) call)) := rfl

/-- What begins now begins within the statement under way, or is one itself. -/
theorem getD_size_le (hsize : since.getD 0 ≤ m.store.size) :
    since.getD m.store.size ≤ m.store.size := by
  cases since with
  | none => exact Nat.le_refl _
  | some slot => exact hsize

theorem mayStay_or_created {h : Handle}
    (hh : mayStay spared (some (since.getD m.store.size)) h = true) :
    mayStay spared since h = true ∨ m.store.size ≤ h.index := by
  cases since with
  | some slot => exact .inl hh
  | none =>
    rcases mayStay_iff.mp hh with hh | ⟨slot, hslot, hh⟩
    · exact .inl (mayStay_iff.mpr (.inl hh))
    · cases hslot
      exact .inr hh

/-- At every depth the watched rules do what they have to, and the others do the same unless they
    are broken off. -/
theorem obliges_thrifty (spared : List Handle) (depth : Nat) (since : Option Nat) :
    Obliges (fun h => mayStay spared since h = true) (since.getD 0) (thrifty spared depth since)
      (rules depth) := by
  induction depth generalizing since with
  | zero =>
    rw [thrifty]
    refine ⟨rfl, fun m node scope _ _ => ?_, fun m node scope _ _ => ?_,
      fun m c _ _ => ?_, fun m h _ => ?_⟩
    all_goals
      refine .inr ⟨rfl, fun h => ?_, fun _ _ h => ?_⟩
      · cases h
      · cases h
  | succ depth ih =>
    have hnew : ∀ (m : Machine) (h : Handle), since.getD m.store.size ≤ h.index →
        mayStay spared (some (since.getD m.store.size)) h = true :=
      fun m h hh => mayStay_iff.mpr (.inr ⟨_, rfl, hh⟩)
    have hbudget := (rules_budget depth).trans (budget_thrifty spared depth since).symm
    have hb := minds_bare depth
    refine ⟨hbudget, fun m node scope hsize hopen => ?_, fun m node scope hsize hopen => ?_,
      fun m c hsize hopen => ?_, fun m h hsize => ?_⟩
    · rw [eval_thrifty]
      refine Agree.of_looking ?_
      exact (evalNow_flows (minds_tidy (ih _) hb (hnew m)) node trivial
        (fits_tidy (getD_size_le hsize)) hopen).mono
        fun _ _ h => h.follows.mono fun _ => mayStay_or_created
    · rw [evalLink_thrifty]
      refine Agree.of_looking ?_
      exact (linkNow_flows (minds_tidy (ih _) hb (hnew m)) node trivial
        (fits_tidy (getD_size_le hsize)) hopen).mono
        fun _ _ h => h.follows.mono fun _ => mayStay_or_created
    · rw [call_thrifty]
      refine Agree.of_looking ?_
      exact inspected_accounts (callNow_accounts (ih _) hb (hnew m) (getD_size_le hsize) hopen c)
        fun _ => mayStay_or_created
    · exact destroyNow_settles (ih since).destroy hsize (ih since).call h

end Watch

/-! ## Modules -/

section Modules

variable {K : Handle → Prop} {size : Nat} {r r' : Rules} {m : Machine}

/-- The discipline of runs that leave the store alone. -/
def still : Discipline :=
  { bare with
    leads := fun s t => t = s
    leads_refl := fun _ => rfl
    leads_trans := fun h h' => h'.trans h
    known_mono := fun _ _ => trivial }

theorem fits_still (m : Machine) : still.Fits m :=
  ⟨trivial, fun _ _ => knows_of_lax id fun _ => trivial, trivial⟩

/-- After each statement of a module its frame is empty, and all is accounted for. -/
theorem moduleStatements_accounts (ho : Obliges K size r r') (hsize : size ≤ m.store.size)
    {rest : List (Option Transfer)} (hframes : m.control.frames = none :: rest) (global : Handle)
    (nodes : List Node) :
    Agree True m (moduleStatements r global nodes) (moduleStatements r' global nodes)
      fun _ m' => Accounts K m m' ∧ m'.control.frames = none :: rest := by
  induction nodes generalizing m with
  | nil => exact Agree.pure ⟨.of_same rfl rfl rfl, hframes⟩
  | cons node nodes ih =>
    have hopen : IsOpen m.control := by
      rw [Discipline.IsOpen, Control.kind?, Control.current?, hframes]
      exact ⟨List.cons_ne_nil _ _, rfl⟩
    have hgoes : ∀ m₁, Accounts K m m₁ → m₁.control.frames = none :: rest →
        Agree True m₁ (moduleStatements r global nodes) (moduleStatements r' global nodes)
          fun _ m' => Accounts K m m' ∧ m'.control.frames = none :: rest := fun m₁ h₁ hframes₁ =>
      (ih (Nat.le_trans hsize h₁.follows.size) hframes₁).mono fun _ _ h => ⟨h₁.trans h.1, h.2⟩
    refine (executeStatement_accounts ho hsize hopen node global false).bind ?_
    rintro outcome m₁ ⟨h₁, hdone⟩
    cases outcome with
    | ok value =>
      refine hgoes m₁ h₁ ?_
      rw [hdone rfl value rfl, hframes]
      rfl
    | error u =>
      obtain ⟨old, below, hframes₁⟩ := List.exists_cons_of_ne_nil (h₁.framed hopen.1)
      have hbelow : below = rest := by
        have hbelow := h₁.below
        rwa [hframes₁, hframes] at hbelow
      subst hbelow
      refine Agree.step (a := old) (n := { m₁ with control := ⟨none :: below⟩ }) ?_ ?_
      · show Except.ok (m₁.control.take.1, { m₁ with control := m₁.control.take.2 }) = _
        rw [Control.take, hframes₁]
      refine (endsModule_keeps (D := still) node _ (fits_still _)).under.bind fun ends m₂ h₂ => ?_
      have hsize₂ : size ≤ m₂.store.size := by
        rw [h₂.leads]
        exact Nat.le_trans hsize h₁.follows.size
      refine (collectTransfer_settles ho.destroy hsize₂ _).bind fun _ m₃ h₃ => ?_
      have htaken :=
        Replaces.of_settles h₃ hframes₁ h₂.leads h₂.scopes h₂.control fun _ ht => by cases ht
      split
      · exact hgoes m₃ (h₁.trans htaken.accounts) htaken.frames
      · exact Agree.pure ⟨h₁.trans htaken.accounts, htaken.frames⟩

end Modules

/-! ## The outset -/

/-- All that is there is the outermost namespace or linked from it, and it has no
    members of certain names. -/
structure Store.Rooted (s : Store) (global : Handle) (names : List String) : Prop where
  balanced : s.Balanced noEdges noEdges
  first : s.handleAt? 0 = some global
  lively : ∀ h, s.isDying h = false
  held : ∀ h, s.contains h = true → h = global ∨ h ∈ s.references global
  unnamed : ∀ c, s.get? global = some c → ∀ name ∈ names, c.members.get? name = none

section Outset

variable {r r' : Rules} {m : Machine} {global : Handle} {names : List String}

theorem Store.isAlive_of_lively {s : Store} {h : Handle} (hlively : s.isDying h = false)
    (hh : s.contains h = true) : s.isAlive h = true :=
  (contains_iff_alive_or_dying.mp hh).resolve_right (Bool.eq_false_iff.mp hlively)

theorem Store.Rooted.contains {s : Store} (hs : s.Rooted global names) : s.contains global = true :=
  contains_of_handleAt? hs.first

theorem Store.Rooted.young {s : Store} (hs : s.Rooted global names) : Young noEdges s global :=
  ⟨isAlive_of_lively (hs.lively _) hs.contains, fun _ => id⟩

/-- Then everything hangs on the outermost namespace. -/
theorem Store.Rooted.accounted (hm : m.store.Rooted global names) (hcontrol : m.control = {}) :
    m.Accounted fun _ => False where
  listed a b hmem := (hm.balanced.linked a b hmem).2.1
  anchored h hh := by
    have hglobal : m.store.Anchored (fun x => x ∈ m.holders ∨ False) global :=
      .base (.inl (Machine.mem_holders.mpr (.inl hm.first)))
    by_cases hsame : global = h
    · exact hsame ▸ hglobal
    · have hlinked := (hm.held h hh).resolve_left fun heq => hsame heq.symm
      refine .step
        ((hm.balanced.listed global h hm.young.alive hlinked hh hsame).resolve_right id) hglobal
  aborts t ht := by
    rw [hcontrol] at ht
    cases ht

/-- A composite was made, and it became a member of the outermost namespace, under a new name. -/
theorem Store.Rooted.member {s t u : Store} {x : Handle} {name : String}
    (hs : s.Rooted global (name :: names))
    (hname : name ∉ names) (hgrown : Grown noEdges noEdges (fun _ => False) s t)
    (hsize : t.size = s.size + 1)
    (hx : t.contains x = true) (hnew : x.index = s.size) {c : Composite}
    (hc : t.get? global = some c) {overloads : List Overload} {new : List Handle}
    (hputs : c.Replaces (fun d => { d with members := d.members.put name overloads }) new [])
    (hmem : x ∈ new) (hput : Grown noEdges noEdges (· = global) t u)
    (hself : u.bare? global = some { c with members := c.members.put name overloads }.bare)
    (hsize' : u.size = t.size) : u.Rooted global names := by
  have hbefore : t.bare? global = s.bare? global := hgrown.grows.bare? hs.young.index_lt
  have halive : ∀ h : Handle, h.index < s.size → u.isAlive h = s.isAlive h := fun h hh =>
    (hput.grows.alive h (Nat.lt_of_lt_of_le hh hgrown.grows.size)).trans (hgrown.grows.alive h hh)
  have hlively : ∀ h, u.isDying h = false := fun h =>
    (hput.grows.dying h).trans ((hgrown.grows.dying h).trans (hs.lively h))
  obtain ⟨d, hd, hdbare⟩ := Option.map_eq_some_iff.mp hself
  have hreferences : u.references global =
      { c with members := c.members.put name overloads }.references := by
    rw [references_of_get? hd]
    exact (congrArg Composite.references hdbare :)
  refine ⟨hput.balanced, ?_, hlively, fun h hh => ?_, fun e he other hother => ?_⟩
  · refine handleAt?_eq_some_iff.mpr ⟨contains_iff.mpr ⟨d, hd⟩, ?_⟩
    exact (handleAt?_eq_some_iff.mp hs.first).2
  · rw [hreferences]
    by_cases hold : h.index < s.size
    · -- whatever was linked before still is
      have hbeen : s.contains h = true := by
        refine contains_of_isAlive ((halive h hold).symm.trans ?_)
        exact isAlive_of_lively (hlively h) hh
      refine (hs.held h hbeen).imp_right fun hlinked =>
        (hputs.go h ?_).resolve_right List.not_mem_nil
      rwa [← references_of_bare? hbefore, references_of_get? hc] at hlinked
    · have hlt := index_lt_size_of_contains hh
      have hxu : u.contains x = true := by
        refine contains_of_isAlive ((hput.grows.alive x (index_lt_size_of_contains hx)).trans ?_)
        exact isAlive_of_lively ((hgrown.grows.dying x).trans (hs.lively x)) hx
      have heq : h = x := eq_of_index_eq hh hxu (by omega)
      exact .inr (heq ▸ hputs.new_mem x hmem)
  · have hne : name ≠ other := fun heq => hname (heq ▸ hother)
    obtain ⟨e₀, he₀, hebare⟩ := Option.map_eq_some_iff.mp (hbefore.symm.trans (bare?_of_get? hc))
    have hmembers : e.members = c.members.put name overloads := by
      rw [hd] at he
      cases he
      exact (congrArg Composite.members hdbare :)
    rw [hmembers, Assoc.get?_put_ne _ _ hne]
    exact (congrArg (fun c => Assoc.get? c.members other) hebare.symm).trans
      (hs.unnamed e₀ he₀ other (List.mem_cons_of_mem _ hother))

/-- A native function is made, and becomes a member of the outermost namespace. -/
theorem declareNative_calm (native : Native) (hm : m.store.Rooted global (native.title :: names))
    (hnames : native.title ∉ names) :
    Calm m
      (do
        let function ← createFunction r (some native.title) (.native native) (some global)
        setType r function native.signature
        let overload : Overload :=
          { type := .ofKind .function, value := some (.reference function) }
        let _ ← setMember r global native.title overload .first)
      (do
        let function ← createFunction r' (some native.title) (.native native) (some global)
        setType r' function native.signature
        let overload : Overload :=
          { type := .ofKind .function, value := some (.reference function) }
        let _ ← setMember r' global native.title overload .first)
      fun _ t => t.Rooted global names := by
  have hsignature : native.signature.references = [] := by cases native <;> rfl
  refine (createFunction_calm hm.balanced (fun _ _ => False.elim) ?_ _ _).bind fun x m₁ _ _ h₁ => ?_
  · rintro _ ⟨⟩
    exact hm.young.index_lt
  have hyoung := h₁.young fun _ _ => False.elim
  refine (setType_calm h₁.balanced hyoung h₁.type (by simp) (by simp [hsignature])).bind ?_
  rintro _ m₂ _ _ ⟨h₂, hsize₂, -⟩
  have hgrown := h₁.grown h₂
  obtain ⟨c, hc⟩ := contains_iff.mp (hm.young.grown hgrown).contains
  have hx := (hyoung.grown h₂).contains
  let overload : Overload := { type := .ofKind .function, value := some (.reference x) }
  have hreferences : overload.references = [x] := rfl
  -- the outermost namespace is as it was
  have hnone : c.members.get? native.title = none := by
    obtain ⟨d, hd⟩ := contains_iff.mp hm.contains
    have hbare : m₂.store.bare? global = m.store.bare? global :=
      hgrown.grows.bare? hm.young.index_lt
    rw [bare?_of_get? hc, bare?_of_get? hd] at hbare
    exact (congrArg (fun c => Assoc.get? c.members native.title) (Option.some.inj hbare)).trans
      (hm.unnamed d hd native.title List.mem_cons_self)
  have hplace : placeOverload overload (some 0) ((c.members.get? native.title).getD []) =
    (none, [overload]) := by
    rw [hnone]
    rfl
  refine (setMember_calm h₂.balanced (hm.young.grown hgrown) hc .first rfl hplace ?_).bind ?_
  · intro y hy
    rw [hreferences] at hy
    rw [List.mem_singleton.mp hy]
    exact index_lt_size_of_contains hx
  rintro _ m₃ _ _ ⟨h₃, hself, hsize₃⟩
  refine Calm.pure (hm.member hnames hgrown (hsize₂.trans h₁.size) hx (by rw [h₁.next]; rfl) hc
    (Composite.replaces_member c hplace) ?_ h₃ hself hsize₃)
  rw [hreferences]
  exact List.mem_singleton_self x

/-- So all native functions do. -/
theorem declareNatives_calm (hm : m.store.Rooted global (Native.all.map (·.title))) :
    Calm m (declareNatives r global) (declareNatives r' global) fun _ t => t.Rooted global [] := by
  have hdistinct : (Native.all.map (·.title)).Nodup := by decide
  unfold declareNatives
  generalize Native.all = natives at hm hdistinct
  induction natives generalizing m with
  | nil => exact Calm.pure hm
  | cons native natives ih =>
    obtain ⟨hnew, hrest⟩ := List.nodup_cons.mp hdistinct
    exact (declareNative_calm native hm hnew).bind fun _ m₁ _ _ h₁ => ih h₁ hrest

/-- The outermost namespace comes into an empty store, and has no members yet. -/
theorem createGlobal_calm (preferences : Preferences) (tokens : Array Token) (names : List String) :
    Calm { Machine.fresh preferences with tokens } (createNamespace r (some "Global") none .own)
      (createNamespace r' (some "Global") none .own) fun global t => t.Rooted global names := by
  have hunscoped : ∀ y : Handle, (none : Option Handle) = some y → y.index < Store.empty.size :=
    fun _ h => absurd h (Option.some_ne_none _).symm
  have hmembers :
    ((createNamespace r' (some "Global") none .own { Machine.fresh preferences with
    tokens }).toOption.bind
      fun made => (made.2.store.get? made.1).map (·.members)) = some .empty := rfl
  refine Agree.along
    (createNamespace_calm isSeed_empty.balanced (fun _ _ => False.elim) hunscoped _ _) ?_
  rintro global m₁ hrun ⟨hscopes, hcontrol, h₁⟩
  rw [hrun] at hmembers
  have hindex : global.index = 0 := by rw [h₁.next]; rfl
  have hthere := contains_of_isAlive h₁.alive
  refine ⟨hscopes, hcontrol, h₁.balanced, handleAt?_eq_some_iff.mpr ⟨hthere, hindex⟩, fun h => ?_,
    fun h hh => .inl ?_, fun c hc name _ => ?_⟩
  · exact (h₁.grows.dying h).trans (isSeed_empty.isDying h)
  · have hlt := index_lt_size_of_contains hh
    rw [h₁.size] at hlt
    exact eq_of_index_eq hh hthere ((Nat.lt_one_iff.mp hlt).trans hindex.symm)
  · have hnone : (m₁.store.get? global).map (·.members) = some .empty := hmembers
    rw [hc, Option.map_some] at hnone
    rw [Option.some.inj hnone]
    rfl

end Outset

/-- Once a first module is over, all that is there hangs on a holder or on a `K`. -/
theorem runModule_accounted {K : Handle → Prop} {r r' : Rules} (ho : Obliges K 0 r r')
    (preferences : Preferences) (tokens : Array Token) (tree : Node) :
    Agree True { Machine.fresh preferences with tokens } (runModule r tree) (runModule r' tree)
      fun _ m' => m'.Accounted K := by
  refine Agree.get_bind ?_
  -- the outermost namespace and the native functions come first
  refine (createGlobal_calm preferences tokens (Native.all.map (·.title))).under.bind ?_
  rintro global m₁ ⟨-, hcontrol₁, h₁⟩
  refine (declareNatives_calm h₁).under.bind ?_
  rintro _ m₂ ⟨-, hcontrol₂, h₂⟩
  let entered : Machine :=
    { m₂ with scopes := ⟨global, none, none⟩ :: m₂.scopes, control := m₂.control.push }
  have hm : entered.Accounted K :=
    ((h₂.accounted (hcontrol₂.trans hcontrol₁)).mono fun _ => False.elim).pushScope _ |>.pushFrame
  refine Agree.step (n := { m₂ with scopes := entered.scopes }) rfl ?_
  refine Agree.step (n := entered) rfl ?_
  refine (moduleStatements_accounts (m := entered) ho (Nat.zero_le _) rfl _ _).bind ?_
  rintro _ m₃ ⟨h₃, hframes₃⟩
  let left : Machine := { m₃ with control := m₃.control.pop.2 }
  refine Agree.step (n := left) rfl ?_
  refine (popScope_accounts (m := left) ho.destroy (Nat.zero_le _) h₃.scopes (.inl rfl)).mono ?_
  rintro _ m' ⟨-, -, -, haccounted⟩
  refine haccounted K (fun _ => id) ((h₃.accounted K (fun _ => id) hm).popFrame.mono fun x hx => ?_)
  -- the frame is empty
  rw [Control.current?, hframes₃] at hx
  rcases hx with hx | hx
  · exact hx
  · cases hx

/-- Where nothing is running and no life is ending, whatever is accounted for is within reach. -/
theorem Machine.Accounted.reachable {m : Machine} {spared : List Handle}
    (hm : m.Accounted (· ∈ spared))
    (hseed : m.store.IsSeed) (hscopes : m.scopes = []) (hcontrol : m.control = {}) {h : Handle}
    (hthere : m.store.contains h = true) :
    m.store.Reachable (m.global?.toList ++ spared.filter m.store.contains) h := by
  have hm : m.Accounted (· ∈ spared.filter m.store.contains) :=
    hm.weaken fun x hx hthere => .base (.inr (List.mem_filter.mpr ⟨hx, hthere⟩))
  refine Kept.reachable hseed.balanced.toPaired hseed.isDying
    ((hm.anchored h hthere).mono fun x hx => ?_).kept
  rcases hx with hheld | hx
  · rcases Machine.mem_holders.mp hheld with hglobal | hscope | hframe | hends
    · exact List.mem_append_left _ (Option.mem_toList.mpr hglobal)
    · rw [hscopes] at hscope
      cases hscope
    · rw [hcontrol] at hframe
      cases hframe
    · rw [hseed.isDying] at hends
      cases hends
  · exact List.mem_append_right _ hx

open Discipline in
/-- What a first module leaves is within reach of the outermost namespace, or of a composite that is
    still there though a call left it stranded: `spared` is to hold all of these, so that no
    inspection breaks the run off. -/
theorem module_leaves_within_reach {spared : List Handle} {preferences : Preferences}
    {tokens : Array Token} {depth : Nat} {tree : Node} {m : Machine}
    (hrun : runModule (rules depth) tree { Machine.fresh preferences with tokens } = .ok ((), m))
    (hspared : (runModule (thrifty spared depth none) tree).halt?
      { Machine.fresh preferences with tokens } ≠ some .refused)
    (h : Handle) (hthere : m.store.contains h = true) :
    m.store.Reachable (m.global?.toList ++ spared.filter m.store.contains) h := by
  have hfits := isSeed_empty.fits preferences tokens
  obtain ⟨hc, ho⟩ := rules_keep_balance depth
  have hafter :=
    (runModule_keeps (admits_balance (hc noEdges)) (ho noEdges noEdges) tree hfits).post hrun
  have hseed : m.store.IsSeed :=
    Balanced.isSeed hafter.holds fun b => (hafter.leads.dying b).trans (isSeed_empty.isDying b)
  rcases runModule_accounted (obliges_thrifty spared depth none) preferences tokens tree with
    ⟨-, hrefused⟩ | ⟨hsame, -, hend⟩
  · exact absurd (by rw [Run.halt?, hrefused]) hspared
  · rw [hsame] at hrun
    refine Machine.Accounted.reachable ((hend () m hrun).mono fun x hx => ?_) hseed hafter.scopes
      hafter.control hthere
    rcases mayStay_iff.mp hx with hx | ⟨_, hnone, _⟩
    · exact hx
    · cases hnone

open Sketch

/-- `f` takes the function out of `x` and hands it back, and nobody takes it. -/
def handedBack : Node := .bare (.module
  [variableNamed "x" (.bare (.functionExpression ⟨[], none, none, some (body [])⟩)),
    functionNamed "f" []
      [variableNamed "t" (named "x"),
        assignment "x" (.bare .nilLiteral),
        .bare (.returnStatement (some (named "t")))],
    calling "f" []])

/-- A module may leave a composite behind that nothing leads to: what a call hands back is not
    looked at again once the call is over. -/
theorem module_leaves_beyond_reach :
    ∃ m, runModule (rules 40) handedBack (.fresh {}) = .ok ((), m) ∧ ∃ h,
      m.store.contains h = true ∧
      ¬m.store.Reachable m.global?.toList h := by
  have hleft : (runModule (rules 40) handedBack (.fresh {})).toOption.map
      (fun result => result.2.store.contains ⟨4, 0⟩ &&
        !decide (result.2.store.Reachable result.2.global?.toList ⟨4, 0⟩)) =
        some true := by decide +kernel
  obtain ⟨⟨⟩, m, hrun, hm⟩ := Run.exists_ok_of_map hleft
  rw [Bool.and_eq_true, Bool.not_eq_true', decide_eq_false_iff_not] at hm
  exact ⟨m, hrun, ⟨4, 0⟩, hm⟩

/-- `handedBack` leaves nothing beyond reach but what hangs on the function that
    its call handed back. -/
theorem module_leaves_within_reach_handedBack :
    (runModule (thrifty [] 40 none) handedBack).halt? (.fresh {}) = some .refused ∧
      (runModule (thrifty [⟨4, 0⟩] 40 none) handedBack).halt? (.fresh {}) = none ∧
      ∃ m, runModule (rules 40) handedBack (.fresh {}) = .ok ((), m) ∧
        ∀ h, m.store.contains h = true →
          m.store.Reachable (m.global?.toList ++ [⟨4, 0⟩].filter m.store.contains) h := by
  have hends : (runModule (rules 40) handedBack (.fresh {})).toOption.map (fun _ => ()) =
    some () := by decide +kernel
  have hpasses : (runModule (thrifty [⟨4, 0⟩] 40 none) handedBack).halt? (.fresh {}) =
    none := by decide +kernel
  obtain ⟨⟨⟩, m, hrun, -⟩ := Run.exists_ok_of_map hends
  refine ⟨by decide +kernel, hpasses, m, hrun, module_leaves_within_reach hrun fun hrefused => ?_⟩
  cases hpasses.symm.trans hrefused

example : (runModule (thrifty [] 40 none) suspendedLocal).halt? (.fresh {}) =
    none := by decide +kernel

end CompositeGraph
