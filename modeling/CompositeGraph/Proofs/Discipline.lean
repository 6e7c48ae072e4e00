/-
  DISCIPLINES: what every step of a run keeps, said once for all steps.

  A run is made of a few primitive changes to the store, put together by sequencing, branching and
  recursion.  What is said about runs here has the same shape each time: a property of the store
  holds, it holds again afterwards, the stores before and after are related, and everything that
  comes out may be stored.  A `Discipline` is such a property.  Each operation is then gone through
  once, for any discipline, and the disciplines are chosen later.

  What has to be said of scopes and frames too, whatever is evaluated, is a `Regime`: a relation
  between the machine before and the machine after.  A discipline has one, and most have the one
  that asks nothing.

  The judgements compare two runs, `x` and its double `y`: from a machine that keeps the discipline,
  `y` does exactly what `x` does.  A run as its own double says that it keeps the discipline.  Under
  a watch `x` may be broken off instead; then nothing is said of `y`.

    1. HELD.         `Held.of`: the handles and types in a piece of data.
    2. DISCIPLINES.  `Regime` and `Discipline`, `Fits` for machines, `Knows` for data.
    3. RUNS.         `Keeps`: a run that leaves scopes and frames as they are.
    4. FLOWS.        `Flows`: a run that may unwind; it ends with a transfer under way exactly if it
                     unwound, and leaves all frames but the innermost as they are.
-/
import CompositeGraph.Proofs.Shapes
import CompositeGraph.Proofs.StoreLaws

namespace CompositeGraph

/-! ## Held -/

mutual

/-- Every type that a value holds, those in dictionaries included. -/
def Value.types : Value → List TypeTree
  | .type tree => [tree]
  | .dictionary entries => Value.entryTypes entries
  | _ => []

def Value.entryTypes : List (Value × Option Value) → List TypeTree
  | [] => []
  | (key, value) :: rest => Value.types key ++ Value.optionTypes value ++ Value.entryTypes rest

def Value.optionTypes : Option Value → List TypeTree
  | none => []
  | some value => Value.types value

end

/-- The type of a meaning, and those that its value holds. -/
def Overload.types (o : Overload) : List TypeTree := o.type :: Value.optionTypes o.value

/-- Every type that stands in a composite: its own, and those of its members. -/
def Composite.types (c : Composite) : List TypeTree :=
  c.type :: c.members.entries.flatMap fun (_, overloads) => overloads.flatMap Overload.types

/-- Every handle that stands in a composite, its retainers aside. -/
def Composite.named (c : Composite) : List Handle := c.references ++ c.links.currentType.toList

/-- What data is made of, as far as it matters where it comes from. -/
inductive Leaf where
  | handle (handle : Handle)
  | type (type : TypeTree)

/-- Data in which handles and types stand. -/
class Held (α : Type) where
  of : α → List Leaf

instance : Held Unit := ⟨fun _ => []⟩
instance : Held Bool := ⟨fun _ => []⟩
instance : Held Nat := ⟨fun _ => []⟩
instance : Held String := ⟨fun _ => []⟩
instance : Held Handle := ⟨fun h => [.handle h]⟩
instance : Held Value := ⟨fun v => v.handles.map .handle ++ v.types.map .type⟩
instance : Held TypeTree := ⟨fun t => .type t :: t.references.map .handle⟩
instance : Held Observer := ⟨fun o => [.handle o.function]⟩

instance {α : Type} [Held α] : Held (Option α) := ⟨fun o => o.elim [] Held.of⟩
instance {α : Type} [Held α] : Held (List α) := ⟨fun l => l.flatMap Held.of⟩
instance {α β : Type} [Held α] [Held β] : Held (α × β) := ⟨fun p => Held.of p.1 ++ Held.of p.2⟩

instance : Held Overload := ⟨fun o => Held.of o.type ++ Held.of o.value ++ Held.of o.observers⟩
instance : Held Transfer := ⟨fun t => Held.of t.value⟩
instance : Held Argument := ⟨fun a => Held.of a.value⟩
instance : Held Resolved := ⟨fun r => .handle r.owner :: Held.of r.overload ++ Held.of r.matching⟩

instance : Held Call :=
  ⟨fun c => .handle c.function :: Held.of c.arguments ++ Held.of c.levels ++ Held.of c.caller⟩

instance : Held Run.Callee where
  of
    | .member composite _ _ => Held.of composite
    | .value value => Held.of value

instance : Held Run.Plan := ⟨fun p => Held.of p.function ++ Held.of p.selfComposite⟩

/-- What stands in a place. -/
def Place.held : Place → List Leaf
  | .member composite _ _ => [.handle composite]
  | .entry base key => base.held ++ Held.of key

instance : Held Place := ⟨Place.held⟩

/-- Data in which no type stands. -/
class Typeless (α : Type) [Held α] : Prop where
  not_mem : ∀ (a : α) (t : TypeTree), Leaf.type t ∉ Held.of a

instance : Typeless Unit := ⟨fun _ _ => List.not_mem_nil⟩
instance : Typeless Bool := ⟨fun _ _ => List.not_mem_nil⟩
instance : Typeless Nat := ⟨fun _ _ => List.not_mem_nil⟩
instance : Typeless Handle := ⟨fun h t ht => by cases List.mem_singleton.mp ht⟩

instance {α : Type} [Held α] [Typeless α] : Typeless (Option α) where
  not_mem
    | none, _ => List.not_mem_nil
    | some a, t => Typeless.not_mem a t

/-! ## Disciplines -/

/-- How the machines before and after a run are related, for runs that begin with
    certain machines. -/
structure Regime where
  starts : Machine → Prop
  leads : Machine → Machine → Prop
  /-- Composites whose scope may be left without looking at them again. -/
  loose : Handle → Prop
  /-- Whether there is a watch, which may break runs off. -/
  watched : Prop
  /-- Reports and the like do not matter. -/
  same : ∀ {m m'}, m'.store = m.store → m'.scopes = m.scopes → m'.control = m.control → leads m m'
  trans : ∀ {m m' m''}, leads m m' → leads m' m'' → leads m m''
  again : ∀ {m m'}, starts m → leads m m' → starts m'

/-- The regime that asks nothing. -/
def Regime.free : Regime where
  starts _ := True
  leads _ _ := True
  loose _ := True
  watched := False
  same _ _ _ := trivial
  trans _ _ := trivial
  again _ _ := trivial

/-- A property of stores together with what runs that keep it do: how the stores before and after
    are related, and what may be stored: which handles, and, if the discipline is strict, sound
    types only. -/
structure Discipline where
  holds : Store → Prop
  leads : Store → Store → Prop
  known : Store → Handle → Prop
  strict : Prop
  leads_refl : ∀ s, leads s s
  leads_trans : ∀ {s t u}, leads s t → leads t u → leads s u
  known_mono : ∀ {s t h}, leads s t → known s h → known t h
  known_there : ∀ {s h}, s.contains h = true → known s h
  known_named : ∀ {s a c h}, holds s → s.get? a = some c → h ∈ c.named → known s h
  sound_stored : ∀ {s a c type}, strict → holds s → s.get? a = some c → type ∈ c.types → type.Sound
  regime : Regime := .free

namespace Discipline

variable (D : Discipline)

/-- What may be stored. -/
def Allows (s : Store) : Leaf → Prop
  | .handle h => D.known s h
  | .type type => D.strict → type.Sound

/-- Everything in the data may be stored. -/
def Knows {α : Type} [Held α] (s : Store) (a : α) : Prop := ∀ x ∈ Held.of a, D.Allows s x

/-- The store keeps the discipline, and the frames hold nothing that may not be stored. -/
structure Fits (m : Machine) : Prop where
  holds : D.holds m.store
  frames : ∀ t ∈ m.control.frames, D.Knows m.store t
  starts : D.regime.starts m

/-- The discipline speaks of the store alone. -/
class Storewise : Prop where
  free : D.regime = .free

variable {D}

/-- A discipline about the store alone asks nothing of a machine. -/
theorem starts_free [D.Storewise] {m : Machine} : D.regime.starts m := by
  rw [Storewise.free]
  trivial

theorem leads_free [D.Storewise] {m m' : Machine} : D.regime.leads m m' := by
  rw [Storewise.free]
  trivial

theorem loose_free [D.Storewise] {h : Handle} : D.regime.loose h := by
  rw [Storewise.free]
  trivial

section Knows

variable {α β : Type} [Held α] [Held β] {s t : Store}

theorem Allows.mono {x : Leaf} (h : D.Allows s x) (hl : D.leads s t) : D.Allows t x := by
  cases x with
  | handle => exact D.known_mono hl h
  | type => exact h

/-- What is known stays known as the store goes on. -/
theorem Knows.mono {a : α} (h : D.Knows s a) (hl : D.leads s t) : D.Knows t a :=
  fun x hx => (h x hx).mono hl

/-- Where any handle may be stored and types do not matter, all data may. -/
theorem knows_of_lax (hlax : ¬D.strict) (hknown : ∀ h, D.known s h) {a : α} : D.Knows s a := by
  intro x _
  cases x with
  | handle h => exact hknown h
  | type type => exact fun hstrict => absurd hstrict hlax

@[simp] theorem knows_unit {u : Unit} : D.Knows s u := fun _ h => nomatch h
@[simp] theorem knows_bool {b : Bool} : D.Knows s b := fun _ h => nomatch h
@[simp] theorem knows_nat {n : Nat} : D.Knows s n := fun _ h => nomatch h
@[simp] theorem knows_string {t : String} : D.Knows s t := fun _ h => nomatch h

@[simp] theorem knows_handle {h : Handle} : D.Knows s h ↔ D.known s h := by
  simp [Knows, Held.of, Allows]

@[simp] theorem knows_none : D.Knows s (none : Option α) := fun _ h => nomatch h

@[simp] theorem knows_some {a : α} : D.Knows s (some a) ↔ D.Knows s a := Iff.rfl

@[simp] theorem knows_nil : D.Knows s ([] : List α) := fun _ h => nomatch h

/-- A list is known item by item. -/
theorem knows_list {l : List α} : D.Knows s l ↔ ∀ a ∈ l, D.Knows s a := by
  simp only [Knows, Held.of, List.mem_flatMap]
  exact ⟨fun h a ha x hx => h x ⟨a, ha, hx⟩, fun h x ⟨a, ha, hx⟩ => h a ha x hx⟩

@[simp] theorem knows_cons {a : α} {l : List α} :
    D.Knows s (a :: l) ↔ D.Knows s a ∧ D.Knows s l := by
  simp only [knows_list, List.forall_mem_cons]

theorem knows_append {l l' : List α} : D.Knows s (l ++ l') ↔ D.Knows s l ∧ D.Knows s l' := by
  simp only [knows_list, List.forall_mem_append]

theorem knows_prod {p : α × β} : D.Knows s p ↔ D.Knows s p.1 ∧ D.Knows s p.2 := by
  simp only [Knows, Held.of, List.forall_mem_append]

@[simp] theorem knows_pair {a : α} {b : β} :
    D.Knows s (a, b) ↔ D.Knows s a ∧ D.Knows s b := knows_prod

theorem knows_option {o : Option α} : D.Knows s o ↔ ∀ a, o = some a → D.Knows s a := by
  cases o <;> simp

omit [Held α] in
/-- What a function makes of an option. -/
theorem Knows.bind {o : Option α} {f : α → Option β} (h : ∀ a, o = some a → D.Knows s (f a)) :
    D.Knows s (o.bind f) := by
  cases o with
  | none => exact knows_none
  | some a => exact h a rfl

theorem Knows.filter {o : Option α} {p : α → Bool} (h : D.Knows s o) : D.Knows s (o.filter p) := by
  cases o with
  | none => exact knows_none
  | some a =>
    rw [Option.filter_some]
    split
    · exact h
    · exact knows_none

theorem Knows.or {o o' : Option α} (h : D.Knows s o) (h' : D.Knows s o') : D.Knows s (o.or o') := by
  cases o with
  | none => exact h'
  | some a => exact h

theorem knows_observer {o : Observer} : D.Knows s o ↔ D.known s o.function := by
  simp [Knows, Held.of, Allows]

/-- What was found is known by its owner, its overload and the composite picked. -/
theorem knows_resolved {r : Resolved} :
    D.Knows s r ↔ D.known s r.owner ∧ D.Knows s r.overload ∧ D.Knows s r.matching := by
  show (∀ x ∈ .handle r.owner :: (Held.of r.overload ++ Held.of r.matching), D.Allows s x) ↔ _
  rw [List.forall_mem_cons, List.forall_mem_append]
  exact Iff.rfl

theorem knows_call {c : Call} :
    D.Knows s c ↔ D.known s c.function ∧ D.Knows s c.arguments ∧ D.Knows s c.levels ∧
      D.Knows s c.caller := by
  show (∀ x ∈ .handle c.function :: (Held.of c.arguments ++ Held.of c.levels ++ Held.of c.caller),
    D.Allows s x) ↔ _
  rw [List.forall_mem_cons, List.forall_mem_append, List.forall_mem_append, and_assoc]
  exact Iff.rfl

theorem knows_plan {p : Run.Plan} :
    D.Knows s p ↔ D.Knows s p.function ∧ D.Knows s p.selfComposite := by
  simp only [Knows, Held.of, List.forall_mem_append]

end Knows

theorem Fits.current? {m : Machine} (h : D.Fits m) : D.Knows m.store m.control.current? := by
  unfold Control.current?
  cases hf : m.control.frames with
  | nil => exact knows_none
  | cons t rest => exact h.frames t (by rw [hf]; exact List.mem_cons_self)

/-! ## Runs -/

end Discipline

/-- What came to its end after another step did so after that step did. -/
theorem exists_of_bind_eq_ok {ε α β : Type} {x : Except ε α} {f : α → Except ε β} {b : β}
    (h : (x >>= f) = .ok b) : ∃ a, x = .ok a ∧ f a = .ok b := by
  cases x with
  | error e => cases h
  | ok a => exact ⟨a, rfl, h⟩

/-- A run whose result has something told of it comes to its end. -/
theorem Run.exists_ok_of_map {α β : Type} {x : Run α} {m : Machine} {f : α × Machine → β} {b : β}
    (h : (x m).toOption.map f = some b) : ∃ a m', x m = .ok (a, m') ∧ f (a, m') = b := by
  cases hx : x m with
  | error e =>
    rw [hx] at h
    cases h
  | ok result =>
    rw [hx] at h
    exact ⟨result.1, result.2, rfl, Option.some.inj h⟩

/-- From `m` on, `y` does what `x` does, and if they come to a result, `Q` holds of it; unless there
    is a watch and it breaks `x` off. -/
def Agree {α : Type} (watched : Prop) (m : Machine) (x y : Run α) (Q : α → Machine → Prop) : Prop :=
  watched ∧ x m = .error .refused ∨ y m = x m ∧ x m ≠ .error .refused ∧ ∀ a m',
    x m = .ok (a, m') → Q a m'

namespace Agree

variable {α β : Type} {watched : Prop} {m : Machine} {x y : Run α} {Q : α → Machine → Prop}
  {R : β → Machine → Prop}

/-- What is known of the result. -/
theorem post (h : Agree watched m x y Q) {a : α} {m' : Machine}
    (hx : x m = .ok (a, m')) : Q a m' := by
  rcases h with ⟨-, hrefused⟩ | ⟨-, -, hQ⟩
  · cases hrefused.symm.trans hx
  · exact hQ a m' hx

/-- Without a watch the two runs are the same. -/
theorem same (h : Agree False m x y Q) : y m = x m ∧ x m ≠ .error .refused := by
  rcases h with ⟨⟨⟩, -⟩ | ⟨hsame, hpasses, -⟩
  exact ⟨hsame, hpasses⟩

/-- A run whose result can be told. -/
theorem of_eq {a : α} {m' : Machine} (hx : x m = .ok (a, m')) (hQ : Q a m') :
    Agree watched m x x Q := by
  refine .inr ⟨rfl, ?_, ?_⟩
  · rw [hx]
    exact nofun
  · rintro a' m'' h
    rw [hx] at h
    cases h
    exact hQ

theorem pure {a : α} (hQ : Q a m) : Agree watched m (Pure.pure a) (Pure.pure a) Q := of_eq rfl hQ

/-- Two runs that agree are followed by runs that agree on every result. -/
theorem bind {f g : α → Run β} (hx : Agree watched m x y Q)
    (hf : ∀ a m', Q a m' → Agree watched m' (f a) (g a) R) :
    Agree watched m (x >>= f) (y >>= g) R := by
  have hxf : (x >>= f) m = (x m).bind fun p => f p.1 p.2 := rfl
  have hyg : (y >>= g) m = (y m).bind fun p => g p.1 p.2 := rfl
  rw [Agree, hxf, hyg]
  rcases hx with ⟨hwatched, hrefused⟩ | ⟨hsame, hpasses, hQ⟩
  · rw [hrefused]
    exact .inl ⟨hwatched, rfl⟩
  rw [hsame]
  cases hr : x m with
  | error e =>
    refine .inr ⟨rfl, fun h => hpasses ?_, fun b m' h => nomatch h⟩
    cases h
    exact hr
  | ok p => exact hf p.1 p.2 (hQ p.1 p.2 hr)

/-- After a step whose result can be told, the rest runs from there. -/
theorem step {a : α} {n : Machine} {f g : α → Run β} (hx : x m = .ok (a, n))
    (h : Agree watched n (f a) (g a) R) : Agree watched m (x >>= f) (x >>= g) R := by
  refine bind (of_eq (Q := fun b m' => b = a ∧ m' = n) hx ⟨rfl, rfl⟩) ?_
  rintro _ _ ⟨rfl, rfl⟩
  exact h

theorem mono {Q' : α → Machine → Prop} (hx : Agree watched m x y Q) (h : ∀ a m', Q a m' → Q' a m') :
    Agree watched m x y Q' := hx.imp_right fun hx =>
      ⟨hx.1, hx.2.1, fun a m' hr => h a m' (hx.2.2 a m' hr)⟩

/-- Besides, something may be known of what the double does. -/
theorem along {P : α → Machine → Prop} (hx : Agree watched m x y Q)
    (h : ∀ a m', y m = .ok (a, m') → Q a m' → P a m') : Agree watched m x y P :=
  hx.imp_right fun hx => ⟨hx.1, hx.2.1, fun a m' hr => h a m' (hx.1.trans hr) (hx.2.2 a m' hr)⟩

/-- Where no watch breaks a run off, none does that may be there. -/
theorem under (h : Agree False m x y Q) : Agree watched m x y Q := h.imp_left fun h => h.1.elim

/-- Only what the runs do from `m` on matters. -/
theorem congr {x' y' : Run α} (hx : x m = x' m) (hy : y m = y' m) (h : Agree watched m x' y' Q) :
    Agree watched m x y Q := by
  rw [Agree, hx, hy]
  exact h

/-- A run agrees with itself. -/
theorem self (hx : Agree watched m x y Q) : Agree watched m x x Q :=
  hx.imp_right fun h => ⟨rfl, h.2⟩

theorem get_bind {f g : Machine → Run β} (h : Agree watched m (f m) (g m) R) :
    Agree watched m (get >>= f) (get >>= g) R := h

theorem store_bind {f g : Store → Run β} (h : Agree watched m (f m.store) (g m.store) R) :
    Agree watched m (Run.store >>= f) (Run.store >>= g) R := h

theorem modifyStore {change : Store → Store} {Q : Unit → Machine → Prop}
    (h : Q () { m with store := change m.store }) :
    Agree watched m (Run.modifyStore change) (Run.modifyStore change) Q := of_eq rfl h

theorem modifyStore_bind {change : Store → Store} {f g : Unit → Run β}
    (h : Agree watched { m with store := change m.store } (f ()) (g ()) R) :
    Agree watched m (Run.modifyStore change >>= f) (Run.modifyStore change >>= g) R := h

theorem flow_get_bind {f g : Machine → Flow β} {R : Except Unwind β → Machine → Prop}
    (h : Agree watched m (f m).outcome (g m).outcome R) :
    Agree watched m (get >>= f : Flow β).outcome (get >>= g : Flow β).outcome R := h

/-- A run within a flow. -/
theorem lift_bind {f g : α → Flow β} {R : Except Unwind β → Machine → Prop}
    (hx : Agree watched m x y Q)
    (hf : ∀ a m', Q a m' → Agree watched m' (f a).outcome (g a).outcome R) :
    Agree watched m (liftM x >>= f : Flow β).outcome (liftM y >>= g : Flow β).outcome R := by
  refine bind (Q := fun o m' => ∃ a, o = .ok a ∧ Q a m')
    (hx.bind fun a m' h => pure ⟨a, rfl, h⟩) ?_
  rintro _ m' ⟨a, rfl, h⟩
  exact hf a m' h

theorem lift_step {a : α} {n : Machine} {f g : α → Flow β} {R : Except Unwind β → Machine → Prop}
    (hx : x m = .ok (a, n)) (h : Agree watched n (f a).outcome (g a).outcome R) :
    Agree watched m (liftM x >>= f : Flow β).outcome (liftM x >>= g : Flow β).outcome R := by
  refine lift_bind (of_eq (Q := fun b m' => b = a ∧ m' = n) hx ⟨rfl, rfl⟩) ?_
  rintro _ _ ⟨rfl, rfl⟩
  exact h

end Agree

namespace Discipline

variable {D : Discipline}

/-- A run that ended left scopes and frames as they were, and the store as the discipline asks. -/
structure After {α : Type} [Held α] (D : Discipline) (m : Machine) (a : α)
    (m' : Machine) : Prop where
  holds : D.holds m'.store
  leads : D.leads m.store m'.store
  scopes : m'.scopes = m.scopes
  control : m'.control = m.control
  knows : D.Knows m'.store a
  follows : D.regime.leads m m'

/-- From a machine that fits, the double does what the run does, and the run keeps
    the discipline. -/
def Keeps {α : Type} [Held α] (D : Discipline) (m : Machine) (x y : Run α) : Prop :=
  D.Fits m → Agree D.regime.watched m x y (D.After m)

section Runs

variable {α β : Type} [Held α] [Held β] {m m' : Machine} {a : α}

theorem After.fits (h : D.After m a m') (hm : D.Fits m) : D.Fits m' where
  holds := h.holds
  frames t ht := (hm.frames t (by rw [← h.control]; exact ht)).mono h.leads
  starts := D.regime.again hm.starts h.follows

/-- What one run leads to, the next goes on from. -/
theorem After.trans {b : β} {m'' : Machine} (h : D.After m a m') (h' : D.After m' b m'') :
    D.After m b m'' where
  holds := h'.holds
  leads := D.leads_trans h.leads h'.leads
  scopes := h'.scopes.trans h.scopes
  control := h'.control.trans h.control
  knows := h'.knows
  follows := D.regime.trans h.follows h'.follows

/-- A change to the store that the discipline allows may come before. -/
theorem After.after_change [D.Storewise] {s : Store} (hl : D.leads m.store s)
    (h : D.After { m with store := s } a m') : D.After m a m' :=
  ⟨h.holds, D.leads_trans hl h.leads, h.scopes, h.control, h.knows, leads_free⟩

theorem After.refl (hm : D.Fits m) (ha : D.Knows m.store a) : D.After m a m :=
  ⟨hm.holds, D.leads_refl _, rfl, rfl, ha, D.regime.same rfl rfl rfl⟩

/-- Where a machine fits, more may be assumed. -/
theorem Keeps.assuming {x y : Run α} (h : D.Fits m → D.Keeps m x y) : D.Keeps m x y :=
  fun hm => h hm hm

theorem Keeps.pure (h : D.Knows m.store a) : D.Keeps m (pure a) (pure a) :=
  fun hm => Agree.pure (After.refl hm h)

/-- The rule for sequences. -/
theorem Keeps.bind {x y : Run α} {f g : α → Run β} (hx : D.Keeps m x y)
    (hf : ∀ a m', D.After m a m' → D.Keeps m' (f a) (g a)) : D.Keeps m (x >>= f) (y >>= g) :=
  fun hm => (hx hm).bind fun a m' ha => (hf a m' ha (ha.fits hm)).mono fun _ _ hb => ha.trans hb

theorem Keeps.get_bind {f g : Machine → Run β} (h : D.Keeps m (f m) (g m)) :
    D.Keeps m (get >>= f) (get >>= g) := h

theorem Keeps.store_bind {f g : Store → Run β} (h : D.Keeps m (f m.store) (g m.store)) :
    D.Keeps m (Run.store >>= f) (Run.store >>= g) := h

theorem Keeps.report {level : Level} {node : Option Node} {message : String} :
    D.Keeps m (Run.report level node message) (Run.report level node message) :=
  fun hm => Agree.of_eq rfl ⟨hm.holds, D.leads_refl _, rfl, rfl, knows_unit,
    D.regime.same rfl rfl rfl⟩

theorem Keeps.exhausted : D.Keeps m (Run.exhausted : Run α) Run.exhausted :=
  fun _ => .inr ⟨rfl, nofun, nofun⟩

/-- A list gone through in order: each entry is met with all that is known of the stores before. -/
theorem Keeps.forM {γ : Type} {f g : γ → Run Unit} {l : List γ}
    (h : ∀ c ∈ l, ∀ m', D.leads m.store m'.store → D.Keeps m' (f c) (g c)) :
    D.Keeps m (l.forM f) (l.forM g) := by
  induction l generalizing m with
  | nil => exact Keeps.pure knows_unit
  | cons c l ih =>
    refine (h c List.mem_cons_self m (D.leads_refl _)).bind ?_
    intro _ m₁ h₁
    refine ih ?_
    intro c' hc' m' hl
    exact h c' (List.mem_cons_of_mem _ hc') m' (D.leads_trans h₁.leads hl)

theorem Keeps.forM_option {γ : Type} {f g : γ → Run Unit} {o : Option γ}
    (h : ∀ c, o = some c → D.Keeps m (f c) (g c)) : D.Keeps m (o.forM f) (o.forM g) := by
  cases o with
  | none => exact Keeps.pure knows_unit
  | some c => exact h c rfl

/-! ### Composites that are made -/

/-- A run that keeps the discipline and gives a loose composite. -/
def Makes (D : Discipline) (m : Machine) (x y : Run Handle) : Prop :=
  D.Fits m → Agree D.regime.watched m x y fun h m' => D.After m h m' ∧ D.regime.loose h

variable {x y : Run Handle}

theorem Makes.keeps (h : D.Makes m x y) : D.Keeps m x y := fun hm => (h hm).mono fun _ _ h => h.1

theorem Keeps.makes [D.Storewise] (h : D.Keeps m x y) : D.Makes m x y :=
  fun hm => (h hm).mono fun _ _ h => ⟨h, loose_free⟩

theorem Makes.pure {h : Handle} (hknown : D.known m.store h) (hloose : D.regime.loose h) :
    D.Makes m (pure h) (pure h) :=
  fun hm => Agree.pure ⟨After.refl hm (knows_handle.mpr hknown), hloose⟩

theorem Makes.assuming (h : D.Fits m → D.Makes m x y) : D.Makes m x y := fun hm => h hm hm

theorem Makes.store_bind {f g : Store → Run Handle} (h : D.Makes m (f m.store) (g m.store)) :
    D.Makes m (Run.store >>= f) (Run.store >>= g) := h

/-- Something is done before a composite is made, or after that. -/
theorem Keeps.bind_makes {x y : Run α} {f g : α → Run Handle} (hx : D.Keeps m x y)
    (hf : ∀ a m', D.After m a m' → D.Makes m' (f a) (g a)) : D.Makes m (x >>= f) (y >>= g) :=
  fun hm => (hx hm).bind fun a m' ha => (hf a m' ha (ha.fits hm)).mono fun _ _ hb =>
    ⟨ha.trans hb.1, hb.2⟩

theorem Makes.bind {f g : Handle → Run Handle} (hx : D.Makes m x y)
    (hf : ∀ h m', D.After m h m' → D.regime.loose h → D.Makes m' (f h) (g h)) :
      D.Makes m (x >>= f) (y >>= g) :=
  fun hm => (hx hm).bind fun h m' ha =>
    (hf h m' ha.1 ha.2 (ha.1.fits hm)).mono fun _ _ hb => ⟨ha.1.trans hb.1, hb.2⟩

end Runs

/-! ## Flows -/

/-- There is an innermost frame, and no transfer of a kind in it. -/
def IsOpen (control : Control) : Prop := control.frames ≠ [] ∧ control.kind? = none

/-- How a flow ends: with a result and the frame still open, or unwinding with a transfer of one of
    the given kinds under way. -/
def Ends {α : Type} [Held α] (D : Discipline) (K : TransferKind → Prop) (m' : Machine) :
    Except Unwind α → Prop
  | .ok a => IsOpen m'.control ∧ D.Knows m'.store a
  | .error _ => ∃ k, m'.control.kind? = some k ∧ K k

/-- A flow that ended left the scopes and all frames but the innermost as they were. -/
structure Lands {α : Type} [Held α] (D : Discipline) (K : TransferKind → Prop) (m : Machine)
    (r : Except Unwind α) (m' : Machine) : Prop where
  fits : D.Fits m'
  leads : D.leads m.store m'.store
  scopes : m'.scopes = m.scopes
  below : m'.control.frames.tail = m.control.frames.tail
  ends : D.Ends K m' r
  follows : D.regime.leads m m'

/-- From a machine that fits and whose frame is open, the double does what the flow does, and the
    flow keeps the discipline. -/
def Flows {α : Type} [Held α] (D : Discipline) (K : TransferKind → Prop)
    (m : Machine) (x y : Flow α) : Prop :=
  D.Fits m → IsOpen m.control → Agree D.regime.watched m x.outcome y.outcome (D.Lands K m)

section Flows

variable {α β : Type} [Held α] [Held β] {K : TransferKind → Prop} {m m' : Machine} {a : α}

theorem Flows.assuming {x y : Flow α} (h : D.Fits m → IsOpen m.control → D.Flows K m x y) :
    D.Flows K m x y := fun hm ho => h hm ho hm ho

theorem Lands.of_after (h : D.After m a m') (hm : D.Fits m) (ho : IsOpen m.control) :
    D.Lands K m (.ok a) m' where
  fits := h.fits hm
  leads := h.leads
  scopes := h.scopes
  below := by rw [h.control]
  ends := ⟨by rw [h.control]; exact ho, h.knows⟩
  follows := h.follows

/-- The same where the run may have been unwound. -/
theorem Lands.trans {b : Except Unwind β} {r : Except Unwind α} {m'' : Machine}
    (h : D.Lands K m r m') (h' : D.Lands K m' b m'') : D.Lands K m b m'' where
  fits := h'.fits
  leads := D.leads_trans h.leads h'.leads
  scopes := h'.scopes.trans h.scopes
  below := h'.below.trans h.below
  ends := h'.ends
  follows := D.regime.trans h.follows h'.follows

theorem Lands.weaken {r : Except Unwind α} {K' : TransferKind → Prop} (hk : ∀ k, K k → K' k)
    (h : D.Lands K m r m') : D.Lands K' m r m' where
  fits := h.fits
  leads := h.leads
  scopes := h.scopes
  below := h.below
  ends := by
    cases r with
    | ok a => exact h.ends
    | error u =>
      obtain ⟨k, hkind, hK⟩ := h.ends
      exact ⟨k, hkind, hk k hK⟩
  follows := h.follows

/-- A flow that unwinds in fewer ways unwinds in these. -/
theorem Flows.weaken {x y : Flow α} {K' : TransferKind → Prop} (hk : ∀ k, K k → K' k)
    (h : D.Flows K m x y) : D.Flows K' m x y :=
  fun hm ho => (h hm ho).mono fun _ _ hl => hl.weaken hk

/-- A run that leaves the frames alone is a flow that does not unwind. -/
theorem Flows.lift {x y : Run α} (h : D.Keeps m x y) : D.Flows K m (liftM x) (liftM y) :=
  fun hm ho => (h hm).bind fun _ _ ha => Agree.pure (Lands.of_after ha hm ho)

theorem Flows.pure (h : D.Knows m.store a) : D.Flows K m (pure a) (pure a) :=
  Flows.lift (Keeps.pure h)

/-- Where a flow unwinds the rest is skipped, and what was kept so far is kept. -/
theorem Flows.bind {x y : Flow α} {f g : α → Flow β} (hx : D.Flows K m x y)
    (hf : ∀ a m', D.leads m.store m'.store → D.Knows m'.store a → D.Flows K m' (f a) (g a)) :
    D.Flows K m (x >>= f) (y >>= g) := by
  intro hm ho
  refine (hx hm ho).bind ?_
  intro r m₁ hl
  cases r with
  | error u => exact Agree.pure ⟨hl.fits, hl.leads, hl.scopes, hl.below, hl.ends, hl.follows⟩
  | ok a => exact (hf a m₁ hl.leads hl.ends.2 hl.fits hl.ends.1).mono fun _ _ hb => hl.trans hb

theorem Flows.get_bind {f g : Machine → Flow β} (h : D.Flows K m (f m) (g m)) :
    D.Flows K m (get >>= f) (get >>= g) := h

theorem Flows.store_bind {f g : Store → Flow β} (h : D.Flows K m (f m.store) (g m.store)) :
    D.Flows K m (liftM Run.store >>= f) (liftM Run.store >>= g) := h

/-- A flow that starts by making a loose composite. -/
theorem Makes.bind_flows {x y : Run Handle} {f g : Handle → Flow β} (hx : D.Makes m x y)
    (hf : ∀ h m', D.leads m.store m'.store → D.known m'.store h → D.regime.loose h →
      D.Flows K m' (f h) (g h)) :
    D.Flows K m (liftM x >>= f) (liftM y >>= g) := by
  intro hm ho
  refine (hx hm).lift_bind fun h m₁ hmade => ?_
  have hlands : D.Lands K m (.ok h) m₁ := Lands.of_after hmade.1 hm ho
  refine (hf h m₁ hlands.leads (knows_handle.mp hlands.ends.2) hmade.2 hlands.fits
    hlands.ends.1).mono ?_
  exact fun _ _ hb => hlands.trans hb

theorem Flows.forM {γ : Type} {f g : γ → Flow Unit} {l : List γ}
    (h : ∀ c ∈ l, ∀ m', D.leads m.store m'.store → D.Flows K m' (f c) (g c)) :
    D.Flows K m (l.forM f) (l.forM g) := by
  induction l generalizing m with
  | nil => exact Flows.pure knows_unit
  | cons c l ih =>
    refine (h c List.mem_cons_self m (D.leads_refl _)).bind ?_
    intro _ m₁ h₁ _
    refine ih ?_
    intro c' hc' m' hl
    exact h c' (List.mem_cons_of_mem _ hc') m' (D.leads_trans h₁ hl)

theorem Flows.forM_option {γ : Type} {f g : γ → Flow Unit} {o : Option γ}
    (h : ∀ c, o = some c → D.Flows K m (f c) (g c)) : D.Flows K m (o.forM f) (o.forM g) := by
  cases o with
  | none => exact Flows.pure knows_unit
  | some c => exact h c rfl

/-- Something done to each entry of a list, the results collected. -/
theorem Flows.mapM {γ : Type} {f g : γ → Flow α} {l : List γ}
    (h : ∀ c ∈ l, ∀ m', D.leads m.store m'.store → D.Flows K m' (f c) (g c)) :
    D.Flows K m (l.mapM f) (l.mapM g) := by
  induction l generalizing m with
  | nil => rw [List.mapM_nil, List.mapM_nil]; exact Flows.pure knows_nil
  | cons c l ih =>
    rw [List.mapM_cons, List.mapM_cons]
    refine (h c List.mem_cons_self m (D.leads_refl _)).bind ?_
    intro a m₁ h₁ ha
    refine (ih ?_).bind ?_
    · intro c' hc' m' hl
      exact h c' (List.mem_cons_of_mem _ hc') m' (D.leads_trans h₁ hl)
    · intro as m₂ h₂ has
      exact Flows.pure (knows_cons.mpr ⟨ha.mono h₂, has⟩)

end Flows

end Discipline

end CompositeGraph
