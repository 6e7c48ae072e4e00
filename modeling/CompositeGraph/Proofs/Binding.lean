/-
  BINDING, against the matching that selects a function for a call.

  Matching asks whether a function takes some arguments: it counts them, and looks at labels and
  types.  Binding then goes through the parameters with counters of its own.  Do the two read a
  signature alike?

    1. SOURCES.    `bindings type count`: for so many arguments, which names are bound and where
                   each value comes from.  Binding is going through that list (`bindParameters_eq`).
    2. NAMESPACE.  On a live namespace each binding is one more overload of its
                   name, whatever the rules.
    3. ONCE.       In a tidy signature (a variadic parameter only at the end, none with a default
                   before one without) every argument has one place, and every required parameter
                   gets an argument if there are enough of them.
    4. MATCHING.   For an untidy signature some call is selected that is not bound so.
-/
import CompositeGraph.Proofs.Links
import CompositeGraph.Proofs.Signatures
import CompositeGraph.Invocation

namespace CompositeGraph

/-! ## Sources -/

/-- Where the value of a name comes from. -/
inductive Source where
  /-- The argument at a position. -/
  | argument (position : Nat)
  /-- An array of the arguments from a position on. -/
  | rest (position : Nat)
  /-- The expression of a parameter. -/
  | default (node : Node)
  | nothing

/-- Whether the argument at a position is in the value. -/
def Source.takes (i : Nat) : Source → Bool
  | .argument position => position == i
  | .rest position => position ≤ i
  | .default _ => false
  | .nothing => false

theorem Source.takes_argument (i position : Nat) :
    (argument position).takes i = (position == i) := rfl

theorem Source.takes_rest (i position : Nat) :
    (rest position).takes i = decide (position ≤ i) := rfl

/-- A name that a call binds. -/
structure Binding where
  name : String
  type : TypeTree
  source : Source

/-- Where a parameter gets its value from, of so many arguments. -/
def TypePart.source (part : TypePart) (count position : Nat) : Source :=
  if part.variadic then .rest position
  else if position < count then .argument position
  else match part.value with
    | some node => .default node
    | none => .nothing

/-- How many arguments count as bound behind a parameter. -/
def TypePart.reach (part : TypePart) (count bound position : Nat) : Nat :=
  if part.variadic then count else if position < count then position + 1 else bound

namespace TypeTree

/-- The bindings of parameters from a position on, and of the arguments that are left over then. -/
def bindingsFrom (type : TypeTree) (count : Nat) : (bound position : Nat) → List Nat → List Binding
  | bound, _, [] =>
    (List.range' bound (count - bound)).map fun i => ⟨Run.positional i, .anything, .argument i⟩
  | bound, position, index :: rest =>
    let part := type.part index
    ⟨part.identifier.getD (Run.positional position), type.subtype index,
      part.source count position⟩ ::
      type.bindingsFrom count (part.reach count bound position) (position + 1) rest

/-- The bindings of a call with so many arguments, in their order: the parameters first. -/
def bindings (type : TypeTree) (count : Nat) : List Binding :=
  type.bindingsFrom count 0 0 type.parameters

end TypeTree

namespace Run

variable (rules : Rules) (space : Handle)

/-- The value of a source. -/
def sourceValue (arguments : List Argument) : Source → Flow (Option Value)
  | .argument position => return arguments[position]?.bind (·.value)
  | .rest position =>
    return some (.dictionary (Dictionary.ofValues ((arguments.drop position).map (·.value))))
  | .default node => rules.eval node space
  | .nothing => return none

def makeBinding (arguments : List Argument) (binding : Binding) : Flow Unit := do
  let value ← sourceValue rules space arguments binding.source
  bindName rules space binding.name binding.type value

theorem parameterValue_eq (arguments : List Argument) (bound position : Nat) (part : TypePart) :
    parameterValue rules space arguments bound position part =
      (fun value => (value, part.reach arguments.length bound position)) <$>
        sourceValue rules space arguments (part.source arguments.length position) := by
  unfold parameterValue TypePart.source TypePart.reach
  cases hv : part.variadic with
  | true => rfl
  | false =>
    rcases Nat.lt_or_ge position arguments.length with hlt | hge
    · simp [hlt, sourceValue]
    · simp only [List.getElem?_eq_none hge, Nat.not_lt.mpr hge, if_false]
      cases part.value <;> rfl

theorem forM_congr {α : Type} {l : List α} {f g : α → Flow Unit} (h : ∀ a ∈ l, f a = g a) :
    l.forM f = l.forM g := by
  induction l with
  | nil => rfl
  | cons a l ih =>
    show (f a >>= fun _ => l.forM f) = (g a >>= fun _ => l.forM g)
    rw [h a List.mem_cons_self, ih fun b hb => h b (List.mem_cons_of_mem a hb)]

/-- Arguments left over are bound by their positions. -/
theorem forM_leftover (arguments : List Argument) (bound : Nat) (type : TypeTree) :
    ((arguments.zipIdx.drop bound).forM fun p =>
      (bindName rules space (positional p.2) .anything p.1.value : Flow Unit)) =
      (type.bindingsFrom arguments.length bound 0 []).forM (makeBinding rules space arguments) := by
  have hpositions : List.range' bound (arguments.length - bound) =
    (arguments.zipIdx.drop bound).map (·.2) := by
    rw [List.map_drop, List.zipIdx_map_snd, List.drop_range']
    simp
  rw [TypeTree.bindingsFrom, hpositions, List.map_map, List.forM_eq_forM,
    List.forM_eq_forM, List.forM_map]
  refine forM_congr ?_
  intro p hmem
  have hget : arguments[p.2]? = some p.1 :=
    List.mem_zipIdx_iff_getElem?.mp (List.mem_of_mem_drop hmem)
  simp [makeBinding, sourceValue, hget]

/-- From any position on, binding is going through the bindings. -/
theorem bindParametersFrom_eq (type : TypeTree) (arguments : List Argument) (bound position : Nat)
    (parameters : List Nat) :
    (do
      let bound ← bindParametersFrom rules space type arguments bound position parameters
      (arguments.zipIdx.drop bound).forM fun p =>
        (bindName rules space (positional p.2) .anything p.1.value : Flow Unit)) =
      (type.bindingsFrom arguments.length bound position parameters).forM
        (makeBinding rules space arguments) := by
  induction parameters generalizing bound position with
  | nil => exact forM_leftover rules space arguments bound type
  | cons index rest ih =>
    rw [bindParametersFrom, parameterValue_eq]
    show _ = (makeBinding rules space arguments _ >>= fun _ =>
      (type.bindingsFrom arguments.length _ (position + 1) rest).forM
        (makeBinding rules space arguments))
    rw [← ih, makeBinding]
    simp only [map_eq_pure_bind, bind_assoc, pure_bind]

/-- Binding parameters is going through their bindings. -/
theorem bindParameters_eq (type : TypeTree) (arguments : List Argument) :
    bindParameters rules space type arguments =
      (type.bindings arguments.length).forM (makeBinding rules space arguments) :=
  bindParametersFrom_eq rules space type arguments 0 0 type.parameters

end Run

/-! ## Namespace -/

/-- The composite with given overloads of a name. -/
def Composite.putMember (name : String) (overloads : List Overload) (c : Composite) : Composite :=
  { c with members := c.members.put name overloads }

/-- The composite with one more overload of a name. -/
def Composite.binding (c : Composite) (name : String) (type : TypeTree)
    (value : Option Value) : Composite :=
  c.putMember name ((c.members.get? name).getD [] ++ [({ type, value } : Overload)])

/-- What is known beforehand of the value of a source. -/
def Source.Holds (arguments : List Argument) (value : Option Value) : Source → Prop
  | .argument position => value = arguments[position]?.bind (·.value)
  | .rest position =>
    value = some (.dictionary (Dictionary.ofValues ((arguments.drop position).map (·.value))))
  | .default _ => True
  | .nothing => value = none

namespace Run

variable (rules : Rules) {space : Handle} {m m' : Machine} {c : Composite}

theorem bind_of_ok {α β : Type} {x : Run α} {f : α → Run β} {a : α} {r : Except Halt (β × Machine)}
    (hx : x m = .ok (a, m')) (hf : f a m' = r) : (x >>= f) m = r := by
  show (x m >>= fun p => f p.1 p.2) = r
  rw [hx]
  exact hf

/-- A live composite retains what it refers to, and nothing is released. -/
theorem forM_retainOrRelease_keeps (handles : List Handle) (hget : m.store.get? space = some c)
    (halive : c.isAlive = true) (hrefers : ∀ h ∈ handles, h ∈ c.references) :
    ∃ m', handles.forM (retainOrRelease rules space) m = .ok ((), m') ∧
      m'.store.get? space = some c := by
  induction handles generalizing m with
  | nil => exact ⟨m, rfl, hget⟩
  | cons h rest ih =>
    have hretains : m.retains space h = true := by
      rw [Machine.retains, hget]
      simp [halive, hrefers h List.mem_cons_self]
    have hstep : ∃ m₁, retainOrRelease rules space h m = .ok ((), m₁) ∧
        m₁.store.get? space = some c := by
      show ∃ m₁, (if m.retains space h then retain space h else release rules space h) m =
        .ok ((), m₁) ∧ _
      rw [if_pos hretains, retain]
      split
      · exact ⟨m, rfl, hget⟩
      · next hne => exact ⟨_, rfl, (Store.get?_modify_ne _ hne).trans hget⟩
    obtain ⟨m₁, hrun, hget₁⟩ := hstep
    obtain ⟨m₂, hrest, hget₂⟩ := ih hget₁ fun h hh => hrefers h (List.mem_cons_of_mem _ hh)
    exact ⟨m₂, bind_of_ok hrun hrest, hget₂⟩

/-- Binding a name in a live namespace adds one overload of it. -/
theorem bindName_binds (hget : m.store.get? space = some c)
    (halive : c.isAlive = true) (name : String) (type : TypeTree) (value : Option Value) :
    ∃ m', bindName rules space name type value m = .ok ((), m') ∧
      m'.store.get? space = some (c.binding name type value) := by
  have hplace : placeOverload { type, value } none ((c.members.get? name).getD []) =
      (none, (c.members.get? name).getD [] ++ [({ type, value } : Overload)]) := rfl
  have hrefers : ∀ h ∈ missingFrom [] ({ type, value } : Overload).references ++
      missingFrom ({ type, value } : Overload).references [],
      h ∈ (c.binding name type value).references := by
    intro h hh
    rcases List.mem_append.mp hh with hh | hh
    · exact (Composite.replaces_member c hplace).new_mem h (Composite.mem_missingFrom.mp hh).1
    · exact absurd (Composite.mem_missingFrom.mp hh).1 List.not_mem_nil
  have hget₁ : ({ m with store := m.store.modify space (Composite.putMember name
      ((c.members.get? name).getD [] ++ [({ type, value } : Overload)])) } :
      Machine).store.get? space =
        some (c.binding name type value) := Store.get?_modify_self _ hget
  obtain ⟨m', hretain, hget'⟩ := forM_retainOrRelease_keeps rules _ hget₁ halive hrefers
  refine ⟨m', ?_, hget'⟩
  have hset : setMember rules space name { type, value } .append m = .ok (some space, m') := by
    unfold setMember
    refine bind_of_ok (a := m.store) rfl ?_
    dsimp only [Placement.target]
    rw [hget]
    exact bind_of_ok rfl (bind_of_ok hretain rfl)
  exact bind_of_ok hset rfl

/-- A flow that came to its end came to the end of its first step. -/
theorem exists_ok_of_bind {α β : Type} {x : Flow α} {f : α → Flow β} {b : β}
    (h : (x >>= f).outcome m = .ok (.ok b, m')) :
    ∃ a m₁, x.outcome m = .ok (.ok a, m₁) ∧ (f a).outcome m₁ = .ok (.ok b, m') := by
  change (x.outcome m >>= fun p => ExceptT.bindCont f p.1 p.2) = _ at h
  cases hx : x.outcome m with
  | error halt =>
    rw [hx] at h
    cases h
  | ok p =>
    obtain ⟨r, m₁⟩ := p
    rw [hx] at h
    cases r with
    | error unwind => cases h
    | ok a => exact ⟨a, m₁, rfl, h⟩

/-- The evaluation of a node leaves a composite as it is. -/
def Leaves (space : Handle) (node : Node) : Prop :=
  ∀ m value m' c, (rules.eval node space).outcome m = .ok (.ok value, m') →
    m.store.get? space = some c → m'.store.get? space = some c

/-- Bindings with the values they come to hold. -/
def Filled (arguments : List Argument) (bindings : List Binding)
    (values : List (Option Value)) : Prop :=
  List.Forall₂ (fun binding value => binding.source.Holds arguments value) bindings values

/-- A composite with bindings made in order. -/
def bindAll (bindings : List Binding) (values : List (Option Value)) (c : Composite) : Composite :=
  (bindings.zip values).foldl (fun c p => c.binding p.1.name p.1.type p.2) c

theorem sourceValue_holds {arguments : List Argument} {source : Source} {value : Option Value}
    (hleaves : ∀ node, source = .default node → Leaves rules space node)
    (hrun : (sourceValue rules space arguments source).outcome m = .ok (.ok value, m'))
    (hget : m.store.get? space = some c) :
      source.Holds arguments value ∧ m'.store.get? space = some c := by
  cases source with
  | default node => exact ⟨trivial, hleaves node rfl m value m' c hrun hget⟩
  | _ =>
    cases hrun
    exact ⟨rfl, hget⟩

theorem forM_makeBinding_binds {arguments : List Argument} (bindings : List Binding)
    (hleaves : ∀ binding ∈ bindings, ∀ node,
      binding.source = .default node → Leaves rules space node)
    (hrun : (bindings.forM (makeBinding rules space arguments)).outcome m = .ok (.ok (), m'))
    (hget : m.store.get? space = some c) (halive : c.isAlive = true) :
    ∃ values, Filled arguments bindings values ∧
      m'.store.get? space = some (bindAll bindings values c) := by
  induction bindings generalizing m c with
  | nil =>
    cases hrun
    exact ⟨[], .nil, hget⟩
  | cons binding rest ih =>
    obtain ⟨_, m₂, hmake, hrest⟩ := exists_ok_of_bind hrun
    obtain ⟨value, m₁, hsource, hbind⟩ := exists_ok_of_bind hmake
    obtain ⟨hholds, hget₁⟩ :=
      sourceValue_holds rules (hleaves binding List.mem_cons_self) hsource hget
    obtain ⟨m₂', hbound, hget₂⟩ := bindName_binds rules hget₁ halive binding.name binding.type value
    have hm₂ : m₂ = m₂' := by
      change (bindName rules space binding.name binding.type value m₁ >>= fun p => _) = _ at hbind
      rw [hbound] at hbind
      cases hbind
      rfl
    subst hm₂
    obtain ⟨values, hfilled, hget'⟩ :=
      ih (fun other hother => hleaves other (List.mem_cons_of_mem _ hother)) hrest hget₂ halive
    exact ⟨value :: values, .cons hholds hfilled, hget'⟩

end Run

/-! ## Once -/

/-- Whether an argument must be given for a parameter. -/
def TypePart.isRequired (part : TypePart) : Bool := !part.variadic && part.value.isNone

namespace TypeTree

/-- The parameters of a function type. -/
def formalParts (type : TypeTree) : List TypePart := type.parameters.map type.part

/-- No parameter stands behind a variadic one, and no required one behind one that is not. -/
def Tidy (type : TypeTree) : Prop :=
  type.formalParts.Pairwise fun a b =>
    a.variadic = false ∧ (b.isRequired = true → a.isRequired = true)

instance (type : TypeTree) : Decidable type.Tidy := inferInstanceAs (Decidable (List.Pairwise _ _))

/-- A call with so many arguments binds each of them in one place, and each required parameter to
    the argument at its position. -/
structure BindsOnce (type : TypeTree) (count : Nat) : Prop where
  once : ∀ i < count, (type.bindings count).countP (·.source.takes i) = 1
  required : ∀ (p : Nat) (part : TypePart),
    type.formalParts[p]? = some part → part.isRequired = true →
    (type.bindings count)[p]?.map Binding.source = some (.argument p)

variable {type : TypeTree} {count : Nat}

/-- The binding of a parameter. -/
theorem getElem?_bindingsFrom (parameters : List Nat) (bound position : Nat) {p index : Nat}
    (h : parameters[p]? = some index) :
    ((type.bindingsFrom count bound position parameters)[p]?).map Binding.source =
      some ((type.part index).source count (position + p)) := by
  induction parameters generalizing bound position p with
  | nil => simp at h
  | cons head rest ih =>
    cases p with
    | zero =>
      cases h
      rfl
    | succ p =>
      rw [bindingsFrom, List.getElem?_cons_succ, ih _ _ h]
      congr 2
      omega

theorem source_bindings (count : Nat) {p : Nat} {part : TypePart}
    (h : type.formalParts[p]? = some part) :
    (type.bindings count)[p]?.map Binding.source = some (part.source count p) := by
  rw [formalParts, List.getElem?_map, Option.map_eq_some_iff] at h
  obtain ⟨index, hindex, rfl⟩ := h
  rw [bindings, getElem?_bindingsFrom _ 0 0 hindex, Nat.zero_add]

/-- If a variadic parameter comes last only, an argument from the position on is bound once, and one
    before it no more. -/
theorem countP_bindingsFrom (parameters : List Nat)
    (hlast : (parameters.map type.part).Pairwise fun a _ => a.variadic = false)
    {bound position : Nat} (hbound : bound = min position count) {i : Nat} (hi : i < count) :
    (type.bindingsFrom count bound position parameters).countP (·.source.takes i) = if i <
      position then 0 else 1 := by
  induction parameters generalizing bound position with
  | nil =>
    have hcount : (List.range' bound (count - bound)).count i =
        if i ∈ List.range' bound (count - bound) then 1 else 0 := (List.nodup_range' 1).count
    rw [bindingsFrom, List.countP_map]
    show (List.range' bound (count - bound)).countP (fun j => (Source.argument j).takes i) = _
    simp only [Source.takes_argument]
    rw [← List.count_eq_countP, hcount]
    simp only [List.mem_range'_1]
    split <;> split <;> omega
  | cons index rest ih =>
    rw [List.map_cons, List.pairwise_cons] at hlast
    obtain ⟨hfirst, hrest⟩ := hlast
    rw [bindingsFrom, List.countP_cons]
    cases hvariadic : (type.part index).variadic with
    | true =>
      -- then it is the last one, and what it takes leaves nothing over
      have hnil : rest = [] := by
        cases rest with
        | nil => rfl
        | cons next more =>
          have := hfirst (type.part next) List.mem_cons_self
          rw [hvariadic] at this
          cases this
      subst hnil
      simp only [TypePart.source, TypePart.reach, hvariadic, if_true, Source.takes_rest,
        bindingsFrom, Nat.sub_self,
        List.range'_zero, List.map_nil, List.countP_nil, decide_eq_true_eq, Nat.zero_add]
      split <;> split <;> omega
    | false =>
      rcases Nat.lt_or_ge position count with hlt | hge
      · simp only [TypePart.source, TypePart.reach, hvariadic, Bool.false_eq_true,
          if_false, hlt, if_true, Source.takes_argument, beq_iff_eq]
        rw [ih hrest (by omega)]
        split <;> split <;> split <;> omega
      · have htakes : ((type.part index).source count position).takes i = false := by
          simp only [TypePart.source, hvariadic, Bool.false_eq_true, if_false, Nat.not_lt.mpr hge]
          cases (type.part index).value <;> rfl
        simp only [TypePart.reach, hvariadic, Bool.false_eq_true, if_false,
          Nat.not_lt.mpr hge, htakes]
        rw [ih hrest (by omega)]
        split <;> split <;> omega

/-- Of a tidy list the required parameters come first. -/
theorem lt_countP_isRequired {parts : List TypePart}
    (htidy : parts.Pairwise fun a b => b.isRequired = true → a.isRequired = true)
    {p : Nat} {part : TypePart}
    (hpart : parts[p]? = some part) (hrequired : part.isRequired = true) :
    p < parts.countP TypePart.isRequired := by
  obtain ⟨hp, rfl⟩ := List.getElem?_eq_some_iff.mp hpart
  have hall : (parts.take (p + 1)).countP TypePart.isRequired = (parts.take (p + 1)).length := by
    rw [List.countP_eq_length]
    intro a ha
    obtain ⟨q, hq, rfl⟩ := List.mem_take_iff_getElem.mp ha
    rcases Nat.lt_or_ge q p with hlt | hge
    · exact List.pairwise_iff_getElem.mp htidy q p _ hp hlt hrequired
    · have hqp : q = p := by omega
      subst hqp
      exact hrequired
  calc p < (parts.take (p + 1)).length := by rw [List.length_take]; omega
    _ = (parts.take (p + 1)).countP TypePart.isRequired := hall.symm
    _ ≤ parts.countP TypePart.isRequired := (List.take_sublist _ _).countP_le

/-- A tidy signature binds any call with enough arguments once. -/
theorem Tidy.bindsOnce (h : type.Tidy)
    (hcount : type.formalParts.countP TypePart.isRequired ≤ count) : type.BindsOnce count where
  once i hi := by
    have hlast := h.imp fun hab => hab.1
    rw [bindings, countP_bindingsFrom type.parameters hlast (by omega) hi,
      if_neg (Nat.not_lt_zero i)]
  required p part hpart hrequired := by
    have hlt := lt_countP_isRequired (h.imp fun hab => hab.2) hpart hrequired
    rw [TypePart.isRequired, Bool.and_eq_true, Bool.not_eq_true'] at hrequired
    rw [source_bindings count hpart, TypePart.source, hrequired.1, if_neg Bool.false_ne_true,
      if_pos (Nat.lt_of_lt_of_le hlt hcount)]

theorem two_le_countP {l : List Binding} {f : Binding → Bool} {p q : Nat}
    (hpq : p < q) {a b : Binding}
    (ha : l[p]? = some a) (hb : l[q]? = some b) (hfa : f a = true) (hfb : f b = true) :
      2 ≤ l.countP f := by
  have hfront : 0 < (l.take q).countP f := by
    refine List.countP_pos_iff.mpr ⟨a, List.mem_of_getElem? (i := p) ?_, hfa⟩
    rwa [List.getElem?_take, if_pos hpq]
  have hback : 0 < (l.drop q).countP f := by
    refine List.countP_pos_iff.mpr ⟨b, List.mem_of_getElem? (i := 0) ?_, hfb⟩
    rwa [List.getElem?_drop, Nat.add_zero]
  rw [← List.take_append_drop q l, List.countP_append]
  omega

/-- An argument at the position behind a variadic parameter, if a parameter stands
    there, is bound twice. -/
theorem not_bindsOnce_of_variadic {p : Nat} {a b : TypePart} (ha : type.formalParts[p]? = some a)
    (hb : type.formalParts[p + 1]? = some b) (hvariadic : a.variadic = true)
    (hcount : p + 1 < count) : ¬type.BindsOnce count := by
  intro h
  obtain ⟨first, hfirst, hsource⟩ := Option.map_eq_some_iff.mp (source_bindings count ha)
  obtain ⟨second, hsecond, hsource'⟩ := Option.map_eq_some_iff.mp (source_bindings count hb)
  have htwo : 2 ≤ (type.bindings count).countP (·.source.takes (p + 1)) := by
    refine two_le_countP (Nat.lt_succ_self p) hfirst hsecond ?_ ?_
    · rw [hsource, TypePart.source, if_pos hvariadic, Source.takes_rest]
      simp
    · rw [hsource', TypePart.source]
      split
      · simp [Source.takes_rest]
      · simp [Source.takes_argument]
  have := h.once (p + 1) hcount
  omega

/-- A required parameter behind the last argument gets none. -/
theorem not_bindsOnce_of_isRequired {p : Nat} {part : TypePart}
    (hpart : type.formalParts[p]? = some part)
    (hrequired : part.isRequired = true) (hcount : count ≤ p) : ¬type.BindsOnce count := by
  intro h
  have hsource := h.required p part hpart hrequired
  rw [TypePart.isRequired, Bool.and_eq_true, Bool.not_eq_true',
    Option.isNone_iff_eq_none] at hrequired
  rw [source_bindings count hpart, TypePart.source, hrequired.1, hrequired.2,
    if_neg Bool.false_ne_true, if_neg (Nat.not_lt.mpr hcount)] at hsource
  cases hsource

/-- If a required parameter stands behind one that is not, one of them stands behind as many
    parameters as are required. -/
theorem exists_isRequired_behind {parts : List TypePart} {p q : Nat} (hpq : p < q) {a b : TypePart}
    (ha : parts[p]? = some a) (hb : parts[q]? = some b) (hnot : a.isRequired = false)
    (hrequired : b.isRequired = true) :
    ∃ k part, parts.countP TypePart.isRequired ≤ k ∧ parts[k]? = some part ∧
      part.isRequired = true := by
  rcases Nat.lt_or_ge q (parts.countP TypePart.isRequired) with hlt | hge
  · -- not all of the first ones are required, so some of the others are
    have hsplit := congrArg (List.countP TypePart.isRequired)
      (List.take_append_drop (parts.countP TypePart.isRequired) parts)
    rw [List.countP_append] at hsplit
    have hmem : a ∈ parts.take (parts.countP TypePart.isRequired) := by
      refine List.mem_of_getElem? (i := p) ?_
      rwa [List.getElem?_take, if_pos (Nat.lt_trans hpq hlt)]
    have hfew : (parts.take (parts.countP TypePart.isRequired)).countP TypePart.isRequired <
        (parts.take (parts.countP TypePart.isRequired)).length := by
      refine Nat.lt_of_le_of_ne List.countP_le_length ?_
      intro heq
      exact Bool.false_ne_true (hnot.symm.trans (List.countP_eq_length.mp heq a hmem))
    rw [List.length_take] at hfew
    have hrest : 0 < (parts.drop (parts.countP TypePart.isRequired)).countP
      TypePart.isRequired := by omega
    obtain ⟨part, hpart, hreq⟩ := List.countP_pos_iff.mp hrest
    obtain ⟨k, hk⟩ := List.mem_iff_getElem?.mp hpart
    rw [List.getElem?_drop] at hk
    exact ⟨_, part, Nat.le_add_right _ k, hk, hreq⟩
  · exact ⟨q, b, hge, hb, hrequired⟩

/-- Arguments without values, labelled as the parameters ask. -/
def labelled (type : TypeTree) (count : Nat) : List Argument :=
  (List.range count).map fun i => { label := type.formalParts[i]?.bind (·.label) }

end TypeTree

/-! ## Matching -/

namespace TypeTree

variable {type : TypeTree}

theorem lt_size_of_mem_parameters {index : Nat} (h : index ∈ type.parameters) :
    index < type.size := by
  unfold parameters flagged at h
  split at h
  · exact (mem_children.mp h).1
  · cases h

theorem filterMap_part? (type : TypeTree) :
    type.parameters.filterMap type.part? = type.formalParts := by
  rw [formalParts, ← List.filterMap_eq_map]
  refine List.filterMap_congr fun index hindex => ?_
  rw [part?, Function.comp_apply, part_eq_getD,
    List.getElem?_eq_getElem (lt_size_of_mem_parameters hindex)]
  rfl

/-- A parameter that takes the argument at a position stands there, or the position
    is behind them all. -/
theorem parameterAt?_eq_some {position index : Nat} {part : TypePart}
    (h : type.parameterAt? position = some (index, part)) :
    type.parameters.length ≤ position ∨ type.formalParts[position]? = some part := by
  rcases Nat.lt_or_ge position type.parameters.length with hlt | hge
  · right
    rw [parameterAt?, List.getElem?_eq_getElem hlt, Option.bind_some, Option.map_eq_some_iff] at h
    obtain ⟨found, hfound, heq⟩ := h
    cases heq
    rw [formalParts, List.getElem?_map, List.getElem?_eq_getElem hlt, Option.map_some,
      TypeTree.part, hfound]
    rfl
  · exact Or.inl hge

end TypeTree

namespace Lookup

open TypeTree

variable {lookup : Lookup} {type : TypeTree}

theorem countFits_iff (type : TypeTree) (count : Nat) :
    countFits type count = true ↔ type.formalParts.countP TypePart.isRequired ≤ count ∧
      ((∃ part ∈ type.formalParts, part.variadic = true) ∨ count ≤ type.formalParts.length) := by
  have hrequired : (fun part : TypePart => !part.variadic && part.value.isNone) =
    TypePart.isRequired := rfl
  rw [countFits, filterMap_part?, hrequired]
  simp [List.countP_eq_length_filter]

/-- Where types are not asked for, arguments fit that have the labels of their parameters. -/
theorem argumentsFit?_of_labels (hstructural : lookup.structural = false)
    (arguments : List Argument) (position : Nat)
    (hlabels : ∀ (j : Nat) (argument : Argument), arguments[j]? = some argument →
      argument.label = type.formalParts[position + j]?.bind (·.label)) :
    lookup.argumentsFit? type position arguments = some true := by
  induction arguments generalizing position with
  | nil => rfl
  | cons argument rest ih =>
    have hrest : lookup.argumentsFit? type (position + 1) rest = some true := by
      refine ih (position + 1) fun j other hother => ?_
      rw [hlabels (j + 1) other (by simpa using hother)]
      congr 2
      omega
    have hlabel : argument.label = type.formalParts[position]?.bind (·.label) :=
      hlabels 0 argument rfl
    rw [argumentsFit?]
    split
    · rfl
    · next index part hat =>
      have htyped : lookup.typed? type index argument.value = some true := by
        rw [typed?, hstructural]
        rfl
      rw [if_pos, htyped]
      · exact hrest
      · rw [labelFits]
        rcases parameterAt?_eq_some hat with hbehind | hpart
        · split <;> simp [hbehind]
        · rw [hlabel, hpart, Option.bind_some]
          split
          · next label hasked => simp [hasked]
          · rfl

/-- What it takes for a function to be selected. -/
theorem valueFunction_eq_some_iff {value : Option Value} {arguments : List Argument}
    {function : Handle} : lookup.valueFunction value arguments = some function ↔
      value.bind Value.handle? = some function ∧ ∃ composite,
        lookup.store.get? function = some composite ∧
        composite.is .function = true ∧ countFits composite.type arguments.length = true ∧
        lookup.argumentsFit? composite.type 0 arguments = some true := by
  have hcandidate : ∀ candidate, lookup.candidate value arguments.length = some candidate ↔
      value.bind Value.handle? = some candidate.1 ∧
      lookup.store.get? candidate.1 = some candidate.2 ∧
        candidate.2.is .function = true ∧ countFits candidate.2.type arguments.length = true := by
    rintro ⟨handle, composite⟩
    simp only [candidate, Option.bind_eq_bind, Option.bind_eq_some_iff,
      Option.ite_none_right_eq_some, Bool.and_eq_true, Option.some.injEq, Prod.mk.injEq]
    constructor
    · rintro ⟨_, hvalue, _, hget, hfits, rfl, rfl⟩
      exact ⟨hvalue, hget, hfits⟩
    · rintro ⟨hvalue, hget, hfits⟩
      exact ⟨handle, hvalue, composite, hget, hfits, rfl, rfl⟩
  rw [valueFunction, Option.join_eq_some_iff, valueFunction?]
  constructor
  · intro h
    split at h
    · cases h
    · rename_i handle composite hfound
      obtain ⟨hvalue, hget, hkind, hcount⟩ := (hcandidate _).mp hfound
      obtain ⟨fits, hfits, hpicked⟩ := Option.bind_eq_some_iff.mp h
      obtain ⟨rfl, heq⟩ := Option.ite_none_right_eq_some.mp (Option.some.inj hpicked)
      obtain rfl := Option.some.inj heq
      exact ⟨hvalue, composite, hget, hkind, hcount, hfits⟩
  · rintro ⟨hvalue, composite, hget, hkind, hcount, hfits⟩
    rw [(hcandidate (function, composite)).mpr ⟨hvalue, hget, hkind, hcount⟩]
    simp only [hfits]
    rfl

variable {store : Store} {function : Handle} {composite : Composite}

/-- A function is selected for arguments that are labelled as it asks, if their number is right. -/
theorem valueFunction_labelled (hget : store.get? function = some composite)
    (hkind : composite.is .function = true) {count : Nat}
    (hcount : countFits composite.type count = true) :
    (⟨store, false⟩ : Lookup).valueFunction (some (.reference function))
    (composite.type.labelled count) =
      some function := by
  refine valueFunction_eq_some_iff.mpr ⟨rfl, composite, hget, hkind, ?_, ?_⟩
  · rwa [labelled, List.length_map, List.length_range]
  · refine argumentsFit?_of_labels rfl _ 0 fun j argument hargument => ?_
    rw [labelled, List.getElem?_map, Option.map_eq_some_iff] at hargument
    obtain ⟨i, hi, rfl⟩ := hargument
    rw [List.getElem?_eq_some_iff] at hi
    obtain ⟨hj, rfl⟩ := hi
    rw [List.getElem_range, Nat.zero_add]

/-- Every call a signature is selected for binds its arguments once iff the signature is tidy. -/
theorem bindsOnce_iff_tidy (hget : store.get? function = some composite)
    (hkind : composite.is .function = true) :
    (∀ structural value arguments,
      (⟨store, structural⟩ : Lookup).valueFunction value arguments = some function →
      composite.type.BindsOnce arguments.length) ↔ composite.type.Tidy := by
  constructor
  · intro h
    have hbinds : ∀ count, countFits composite.type count = true →
      composite.type.BindsOnce count := by
      intro count hcount
      have := h false _ _ (valueFunction_labelled hget hkind hcount)
      rwa [labelled, List.length_map, List.length_range] at this
    refine List.pairwise_iff_getElem.mpr fun p q hp hq hpq => ?_
    have ha := List.getElem?_eq_getElem hp
    have hb := List.getElem?_eq_getElem hq
    constructor
    · -- with a parameter behind a variadic one, enough arguments reach both
      rw [← Bool.not_eq_true]
      intro hvariadic
      have hnext := List.getElem?_eq_getElem (Nat.lt_of_le_of_lt hpq hq)
      have hselected : countFits composite.type
          (max (composite.type.formalParts.countP TypePart.isRequired) (p + 2)) = true :=
        (countFits_iff _ _).mpr ⟨Nat.le_max_left .., Or.inl ⟨_, List.getElem_mem hp, hvariadic⟩⟩
      exact not_bindsOnce_of_variadic ha hnext hvariadic (by omega) (hbinds _ hselected)
    · -- with only as many arguments as are required, one that comes later gets none
      intro hrequired
      rw [← Bool.not_eq_false]
      intro hnot
      obtain ⟨k, part, hle, hpart, hreq⟩ := exists_isRequired_behind hpq ha hb hnot hrequired
      refine not_bindsOnce_of_isRequired hpart hreq hle (hbinds _ ?_)
      rw [countFits_iff]
      exact ⟨Nat.le_refl _, Or.inr List.countP_le_length⟩
  · intro htidy structural value arguments hselected
    obtain ⟨_, found, hfound, _, hcount, _⟩ := valueFunction_eq_some_iff.mp hselected
    cases hget.symm.trans hfound
    exact htidy.bindsOnce ((countFits_iff _ _).mp hcount).1

end Lookup

/-- A default that is evaluated belongs to a parameter. -/
theorem TypeTree.mem_formalParts_of_default {type : TypeTree} {count : Nat} {binding : Binding}
    (hmem : binding ∈ type.bindings count) {node : Node}
    (hsource : binding.source = .default node) :
    ∃ part ∈ type.formalParts, part.value = some node := by
  have hfrom : ∀ (parameters : List Nat) (bound position : Nat),
      binding ∈ type.bindingsFrom count bound position parameters →
        ∃ part ∈ parameters.map type.part, part.value = some node := by
    intro parameters
    induction parameters with
    | nil =>
      intro bound position h
      obtain ⟨i, _, rfl⟩ := List.mem_map.mp h
      cases hsource
    | cons index rest ih =>
      intro bound position h
      rcases List.mem_cons.mp h with rfl | h
      · refine ⟨_, List.mem_cons_self, ?_⟩
        change (type.part index).source count position = .default node at hsource
        rw [TypePart.source] at hsource
        split at hsource
        · cases hsource
        · split at hsource
          · cases hsource
          · split at hsource
            · next hvalue =>
              cases hsource
              exact hvalue
            · cases hsource
      · obtain ⟨part, hpart, hvalue⟩ := ih _ _ h
        exact ⟨part, List.mem_cons_of_mem _ hpart, hvalue⟩
  exact hfrom type.parameters 0 0 hmem

namespace Run

/-- Matching and binding read a signature alike iff it is tidy.  That every call a function is
    selected for has each argument in one binding, and each required parameter bound to an argument,
    is so iff no parameter stands behind a variadic one and no required one behind one with a
    default.  The bindings are those that a call makes: if no default touches the namespace of the
    call, they are what it gets, in their order, and nothing else about it changes. -/
theorem matching_agrees_with_binding {store : Store} {function : Handle} {composite : Composite}
    (hget : store.get? function = some composite) (hkind : composite.is .function = true) :
    ((∀ structural value arguments,
      (⟨store, structural⟩ : Lookup).valueFunction value arguments = some function →
      composite.type.BindsOnce arguments.length) ↔ composite.type.Tidy) ∧
    ∀ (rules : Rules) (space : Handle) (arguments : List Argument) (m m' : Machine) (c : Composite),
      m.store.get? space = some c → c.isAlive = true →
      (∀ part ∈ composite.type.formalParts, ∀ node,
        part.value = some node → Leaves rules space node) →
      (bindParameters rules space composite.type arguments).outcome m = .ok (.ok (), m') →
      ∃ values, Filled arguments (composite.type.bindings arguments.length) values ∧
        m'.store.get? space =
          some (bindAll (composite.type.bindings arguments.length) values c) := by
  refine ⟨Lookup.bindsOnce_iff_tidy hget hkind, ?_⟩
  intro rules space arguments m m' c hspace halive hleaves hrun
  rw [bindParameters_eq] at hrun
  refine forM_makeBinding_binds rules _ ?_ hrun hspace halive
  intro binding hmem node hsource
  obtain ⟨part, hpart, hvalue⟩ := TypeTree.mem_formalParts_of_default hmem hsource
  exact hleaves part hpart node hvalue

/-- The type of a function with the given parameters. -/
def typeWith (parameters : List TypePart) : TypeTree :=
  ⟨{ predefined := some (.composite .function) } :: { parent := some 0, parameters := true } ::
    parameters.map fun part => { part with parent := some 1 }⟩

/-- A store with one function. -/
def storeWith (parameters : List TypePart) : Store :=
  (Store.empty.add (.fresh none (typeWith parameters))).1

def plain (name : String) : TypePart := asAnything { identifier := some name }

def optional (name : String) : TypePart :=
  { plain name with value := some (.bare (.literal .integer (.integer 1))) }

def variadic (name : String) : TypePart := { plain name with variadic := true }

/-- Calls of `f(a, b = 1, c...)` bind their arguments once. -/
theorem matching_agrees_with_binding_mixed :
    (storeWith [plain "a", optional "b", variadic "c"]).get? ⟨0, 0⟩ =
        some (.fresh none (typeWith [plain "a", optional "b", variadic "c"])) ∧
      (Composite.fresh none (typeWith [plain "a", optional "b", variadic "c"])).is
        .function = true ∧
      ∀ structural value arguments,
        (⟨storeWith [plain "a", optional "b", variadic "c"], structural⟩ : Lookup).valueFunction
          value arguments = some ⟨0, 0⟩ →
        (typeWith [plain "a", optional "b", variadic "c"]).BindsOnce arguments.length := by
  have hget : (storeWith [plain "a", optional "b", variadic "c"]).get? ⟨0, 0⟩ =
      some (.fresh none (typeWith [plain "a", optional "b", variadic "c"])) := rfl
  have hkind : (Composite.fresh none (typeWith [plain "a", optional "b", variadic "c"])).is
    .function = true := rfl
  have htidy : (typeWith [plain "a", optional "b", variadic "c"]).Tidy := by decide +kernel
  exact ⟨hget, hkind, (matching_agrees_with_binding hget hkind).1.mpr htidy⟩

/-- `f(a = 1, b)` is selected for one argument and leaves `b` without; `f(a..., b)` is selected for
    one, and for three of which it binds the second twice. -/
theorem binding_departs_from_matching :
    (⟨storeWith [optional "a", plain "b"], true⟩ : Lookup).valueFunction (some (.reference ⟨0, 0⟩))
        [{ value := some (.integer 5) }] = some ⟨0, 0⟩ ∧
      ¬(typeWith [optional "a", plain "b"]).BindsOnce 1 ∧
    (⟨storeWith [variadic "a", plain "b"], true⟩ : Lookup).valueFunction (some (.reference ⟨0, 0⟩))
        [{ value := some (.integer 7) }] = some ⟨0, 0⟩ ∧
      ¬(typeWith [variadic "a", plain "b"]).BindsOnce 1 ∧
    (⟨storeWith [variadic "a", plain "b"], true⟩ : Lookup).valueFunction (some (.reference ⟨0, 0⟩))
        [{ value := some (.integer 7) }, { value := some (.integer 8) },
          { value := some (.integer 9) }] =
          some ⟨0, 0⟩ ∧
      ¬(typeWith [variadic "a", plain "b"]).BindsOnce 3 := by
  refine ⟨by decide +kernel, ?_, by decide +kernel, ?_, by decide +kernel, ?_⟩
  · exact TypeTree.not_bindsOnce_of_isRequired (p := 1) rfl rfl (Nat.le_refl 1)
  · exact TypeTree.not_bindsOnce_of_isRequired (p := 1) rfl rfl (Nat.le_refl 1)
  · exact TypeTree.not_bindsOnce_of_variadic (p := 0) rfl rfl rfl (by decide)

end Run

end CompositeGraph
