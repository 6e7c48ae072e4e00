/-
  ACCEPTANCE as an order: which types accept themselves, and among which it is transitive.

  Between trees every comparison has an answer, and it is that of acceptance between branches.
  There the given branch is taken apart first and the expected one after it, so every statement
  comes down to alternatives, and then it is one about the sort of part that is expected: a union, a
  function, a group of members, or a leaf.  Where parts stand below themselves a comparison may have
  no answer; but if it has one, it is the same.

    1. ANSWERS.       Comparing two types, by the branches they are unfolded into.
    2. REFLEXIVITY.   A type without intersections accepts itself, whatever else is in it.
    3. LINEAGES.      Walks up a lineage that ends within the limit are put together.
    4. TRANSITIVITY.  Types of data: leaves under unions, arrays and dictionaries.
-/
import CompositeGraph.Proofs.Comparisons

namespace CompositeGraph

open TypePart

/-! ## Answers -/

namespace TypeTree

variable {lineage : Lineage} {a b : TypeTree} {yes : Bool}

/-- The empty type aside, a type accepts another as its root does. -/
theorem accepts?_eq_partAccepts? (ha : a.parts ≠ []) (hb : b.parts ≠ []) :
    a.accepts? lineage b = a.partAccepts? lineage 0 b 0 := by
  obtain ⟨x, xs, hx⟩ := List.exists_cons_of_ne_nil ha
  obtain ⟨y, ys, hy⟩ := List.exists_cons_of_ne_nil hb
  rw [accepts?, root?, root?, hx, hy]
  rfl

/-- If there is an answer, it is what the roots say when they are unfolded far enough. -/
theorem exists_accepts_branchTo (ha : a.parts ≠ []) (hb : b.parts ≠ [])
    (h : a.accepts? lineage b = some yes) :
    ∃ depth, ∀ m n, depth ≤ m → depth ≤ n →
      (a.branchTo m 0).accepts lineage (b.branchTo n 0) = yes := by
  rw [accepts?_eq_partAccepts? ha hb] at h
  obtain ⟨levels, h⟩ := partAccepts?_eq_some_iff.mp h
  refine ⟨levels + a.size + b.size, fun m n hm hn => ?_⟩
  exact accepts_branchTo_of_acceptsWithin h (by omega) (by omega)

/-- Between trees there is an answer. -/
theorem WellFormed.accepts?_isSome (ha : a.WellFormed) (hb : b.WellFormed) (lineage : Lineage) :
    (a.accepts? lineage b).isSome := by
  rw [accepts?]
  split
  · rfl
  · rfl
  · rw [ha.partAccepts?_eq hb]
    rfl

end TypeTree

/-- A type is unfolded into its own parts, or a blank one. -/
theorem Branch.every_branchTo {P : TypePart → Prop} {type : TypeTree}
    (hparts : ∀ part ∈ type.parts, P part) (hblank : P {})
    (depth index : Nat) : (type.branchTo depth index).Every P := by
  have hpart : ∀ index, P (type.part index) := by
    intro index
    rw [TypeTree.part_eq_getD]
    cases hget : type.parts[index]? with
    | none => exact hblank
    | some part => exact hparts part (List.mem_of_getElem? hget)
  induction depth generalizing index with
  | zero => exact .node (hpart index) fun _ hb => absurd hb List.not_mem_nil
  | succ depth ih =>
    refine .node (hpart index) fun b hb => ?_
    obtain ⟨child, -, rfl⟩ := List.mem_map.mp hb
    exact ih child

/-! ## Reflexivity -/

theorem Lineage.descends_self (lineage : Lineage) (h : Handle) (steps : Nat) :
    lineage.descends h steps h = true := by
  cases steps <;> simp [descends]

namespace TypePart

variable {part : TypePart}

theorem leafAccepts_self (lineage : Lineage) (part : TypePart) :
    part.leafAccepts lineage part = true := by
  rw [leafAccepts]
  cases hreference : part.reference with
  | some h => simp only [beq_self_eq_true, Bool.true_and, Lineage.descends_self]
  | none =>
    cases part.predefined with
    | none => rfl
    | some predefined => cases predefined <;> simp

theorem functionsAgree_self (hfunction : part.predefined = some (.composite .function)) :
    part.functionsAgree part = true := by
  have hagree : ∀ requirement, requirementsAgree requirement requirement = true := by
    intro requirement
    cases requirement with
    | none => rfl
    | some requirement => simp [requirementsAgree]
  simp [functionsAgree, hfunction, hagree]

end TypePart

namespace Branch

variable {lineage : Lineage} {b g : Branch} {bs : List Branch} {part : TypePart}

/-- Each part takes itself, a variadic one too. -/
theorem lockstep_self (h : ∀ b ∈ bs, accepts lineage b b = true) : lockstep lineage bs bs = true :=
  (lockstep_iff_forall₂_of_length_eq rfl).mpr (List.forall₂_same.mpr h)

/-- A branch without intersections accepts itself, and so does each parameter of a
    function in it. -/
theorem Every.accepts_itself (h : b.Every (·.intersection = false)) :
    accepts lineage b b = true ∧
      ∀ parameters, b.flagged? (·.parameters) = some parameters → ∀ p ∈ parameters,
        accepts lineage p p = true := by
  induction h with
  | @node part children hintersection _ ih =>
    have hself : ∀ c ∈ children, accepts lineage c c = true := fun c hc => (ih c hc).1
    have hparameters : ∀ parameters, flaggedIn? (·.parameters) children = some parameters →
        ∀ p ∈ parameters, accepts lineage p p = true := by
      intro parameters hflagged
      rw [flaggedIn?_eq_findSome?] at hflagged
      obtain ⟨c, hc, hflagged⟩ := List.exists_of_findSome?_eq_some hflagged
      exact (ih c hc).2 parameters hflagged
    constructor
    · rw [accepts_iff_alternatives]
      intro g hg
      cases hunion : part.union with
      | true =>
        -- An alternative is one of a member, which accepts it.
        rw [accepts_union_iff hunion (not_union_of_mem_alternatives hg)]
        rw [alternatives_of_union hunion, mem_alternativesIn] at hg
        obtain ⟨c, hc, hg⟩ := hg
        exact ⟨c, hc, accepts_iff_alternatives.mp (hself c hc) g hg⟩
      | false =>
        rw [alternatives_of_not_union hunion, List.mem_singleton] at hg
        subst hg
        by_cases hfunction : part.predefined = some (.composite .function)
        · refine (accepts_function_iff hunion hintersection hfunction
            (g := .node part children) hunion).mpr ?_
          refine ⟨id, functionsAgree_self hfunction, ?_, ?_⟩
          · rw [Branch.parameters, flagged?, parametersAccept_eq]
            cases part.parameters with
            | true => simpa using lockstep_self hself
            | false =>
              simp only [Bool.false_eq_true, if_false]
              cases hflagged : flaggedIn? (·.parameters) children with
              | none => rfl
              | some parameters => exact lockstep_self (hparameters parameters hflagged)
          · rw [returnAccepts_iff]
            intro e he g hg
            have heq : e = g := Option.some.inj (he.symm.trans hg)
            rw [← heq]
            exact hself e (List.mem_of_find?_eq_some he)
        · cases hgroup : part.array || part.dictionary with
          | true =>
            refine (accepts_group_iff hunion hintersection hfunction hgroup
              (g := .node part children) hunion).mpr ?_
            exact ⟨id, rfl, rfl, lockstep_self hself⟩
          | false =>
            refine (accepts_leaf_iff hunion hintersection hfunction hgroup
              (g := .node part children) hunion).mpr ?_
            exact ⟨id, leafAccepts_self lineage part, fun _ => lockstep_self hself⟩
    · intro parameters hflagged
      rw [flagged?] at hflagged
      split at hflagged
      · cases hflagged
        exact hself
      · exact hparameters parameters hflagged

end Branch

/-- A type in which no part is an intersection accepts itself, in every lineage.  For a tree there
    is an answer; where parts stand in other ways there may be none, but never the other one. -/
theorem TypeTree.accepts_self {type : TypeTree}
    (hparts : ∀ part ∈ type.parts, part.intersection = false) (lineage : Lineage) :
    type.accepts? lineage type ≠ some false ∧
      (type.WellFormed → type.accepts? lineage type = some true) := by
  have hyes : ∀ yes, type.accepts? lineage type = some yes → yes = true := by
    intro yes h
    by_cases hempty : type.parts = []
    · rw [TypeTree.accepts?, TypeTree.root?, hempty] at h
      exact (Option.some.inj h).symm
    · obtain ⟨depth, hdepth⟩ := TypeTree.exists_accepts_branchTo hempty hempty h
      rw [← hdepth depth depth (Nat.le_refl _) (Nat.le_refl _)]
      exact (Branch.every_branchTo hparts rfl depth 0).accepts_itself.1
  refine ⟨fun h => Bool.false_ne_true (hyes false h), fun hwf => ?_⟩
  obtain ⟨yes, h⟩ := Option.isSome_iff_exists.mp (hwf.accepts?_isSome hwf lineage)
  rw [h, hyes yes h]

/-- A function with a variadic union and an `inout` array among its parameters, and a
    generic return type. -/
def visitor : TypeTree :=
  ⟨[{ predefined := some (.composite .function), throws := some .optional, awaits := some .absent },
    { parent := some 0, parameters := true },
    { parent := some 1, union := true, variadic := true },
    { parent := some 2, predefined := some .integer },
    { parent := some 2, reference := some ⟨0, 0⟩, isSelf := true },
    { parent := some 1, array := true, inout := true, variadic := true },
    { parent := some 5, predefined := some .string },
    { parent := some 0, reference := some ⟨1, 0⟩, genericArguments := true },
    { parent := some 7, dictionary := true },
    { parent := some 8, predefined := some .string },
    { parent := some 8, predefined := some .any }]⟩

theorem TypeTree.accepts_self_visitor :
    (∀ part ∈ visitor.parts, part.intersection = false) ∧ visitor.WellFormed ∧
      visitor.accepts? { superType := fun _ => none, kind := fun _ => none } visitor =
        some true := by
  have hparts : ∀ part ∈ visitor.parts, part.intersection = false := by decide
  have hwf : visitor.WellFormed := by decide
  exact ⟨hparts, hwf, (TypeTree.accepts_self hparts _).2 hwf⟩

/-! ## Lineages -/

namespace Lineage

variable {lineage : Lineage} {h x y : Handle} {m n : Nat}

/-- The type a number of levels up. -/
def ancestor (lineage : Lineage) : Nat → Handle → Option Handle
  | 0, h => some h
  | steps + 1, h => (lineage.superType h).bind (lineage.ancestor steps)

/-- Nothing has more types above it than are walked. -/
def Bounded (lineage : Lineage) : Prop := ∀ h, lineage.ancestor (Lineage.limit + 1) h = none

theorem ancestor_add (m n : Nat) (h : Handle) :
    lineage.ancestor (m + n) h = (lineage.ancestor m h).bind (lineage.ancestor n) := by
  induction m generalizing h with
  | zero =>
    rw [Nat.zero_add]
    rfl
  | succ m ih =>
    rw [Nat.succ_add, ancestor, ancestor]
    cases lineage.superType h with
    | none => rfl
    | some above => exact ih above

theorem Bounded.le_limit (hbounded : lineage.Bounded) (hx : lineage.ancestor n h = some x) :
    n ≤ Lineage.limit := by
  by_contra hgt
  obtain ⟨k, rfl⟩ := Nat.exists_eq_add_of_le (Nat.lt_of_not_le hgt)
  rw [Nat.succ_eq_add_one, ancestor_add, hbounded h] at hx
  cases hx

/-- What is walked is what is above, as far as the walk goes. -/
theorem descends_iff {x : Handle} {steps : Nat} {h : Handle} :
    lineage.descends x steps h = true ↔ ∃ n ≤ steps, lineage.ancestor n h = some x := by
  induction steps generalizing h with
  | zero => simp [descends, ancestor]
  | succ steps ih =>
    have hsplit : (∃ n ≤ steps + 1, lineage.ancestor n h = some x) ↔
        h = x ∨ ∃ n ≤ steps, (lineage.superType h).bind (lineage.ancestor n) = some x := by
      constructor
      · rintro ⟨n, hn, hx⟩
        cases n with
        | zero => exact .inl (Option.some.inj hx)
        | succ n => exact .inr ⟨n, Nat.le_of_succ_le_succ hn, hx⟩
      · rintro (rfl | ⟨n, hn, hx⟩)
        · exact ⟨0, Nat.zero_le _, rfl⟩
        · exact ⟨n + 1, Nat.succ_le_succ hn, hx⟩
    rw [hsplit, descends, Bool.or_eq_true, beq_iff_eq]
    cases lineage.superType h with
    | none => simp
    | some above => simp [ih]

/-- Of two walks the second goes on where the first has ended; the limit does not cut them off. -/
theorem descends_trans (hbounded : lineage.Bounded) {x y h : Handle}
    (hxy : lineage.descends x limit y = true)
    (hyh : lineage.descends y limit h = true) : lineage.descends x limit h = true := by
  obtain ⟨n, -, hn⟩ := descends_iff.mp hxy
  obtain ⟨m, -, hm⟩ := descends_iff.mp hyh
  have hsum : lineage.ancestor (m + n) h = some x := by rw [ancestor_add, hm, Option.bind_some, hn]
  exact descends_iff.mpr ⟨m + n, hbounded.le_limit hsum, hsum⟩

end Lineage

/-! ## Transitivity -/

namespace TypePart

/-- A part that stands for a type of its own: a predefined one that is no kind of composite, or a
    reference. -/
structure IsDatum (part : TypePart) : Prop where
  plain : part.collection? = none
  single : part.variadic = false
  named : (part.reference = none ∧ part.predefined.any (·.kind?.isNone) = true) ∨
    (part.predefined = none ∧ part.reference.isSome = true)

/-- A part that stands for its members: a union, an array or a dictionary. -/
structure IsGroup (part : TypePart) : Prop where
  collects : part.collection? = some .union ∨ part.collection? = some .array ∨
    part.collection? = some .dictionary
  single : part.variadic = false
  unnamed : part.predefined = none ∧ part.reference = none

instance (part : TypePart) : Decidable part.IsDatum :=
  decidable_of_iff (part.collection? = none ∧ part.variadic = false ∧
      ((part.reference = none ∧ part.predefined.any (·.kind?.isNone) = true) ∨
        (part.predefined = none ∧ part.reference.isSome = true)))
    ⟨fun h => ⟨h.1, h.2.1, h.2.2⟩, fun h => ⟨h.plain, h.single, h.named⟩⟩

instance (part : TypePart) : Decidable part.IsGroup :=
  decidable_of_iff ((part.collection? = some .union ∨ part.collection? = some .array ∨
        part.collection? = some .dictionary) ∧ part.variadic = false ∧ part.predefined = none ∧
        part.reference = none)
    ⟨fun h => ⟨h.1, h.2.1, h.2.2⟩, fun h => ⟨h.collects, h.single, h.unnamed⟩⟩

variable {part : TypePart}

theorem IsDatum.predefined_or_reference (h : part.IsDatum) :
    (∃ p, part.reference = none ∧ part.predefined = some p ∧ p.kind? = none) ∨
      ∃ handle, part.predefined = none ∧ part.reference = some handle := by
  rcases h.named with ⟨hreference, hkind⟩ | ⟨hpredefined, hreference⟩
  · cases hp : part.predefined with
    | none =>
      rw [hp] at hkind
      cases hkind
    | some p =>
      rw [hp] at hkind
      exact .inl ⟨p, hreference, rfl, Option.isNone_iff_eq_none.mp hkind⟩
  · obtain ⟨handle, hhandle⟩ := Option.isSome_iff_exists.mp hreference
    exact .inr ⟨handle, hpredefined, hhandle⟩

theorem IsDatum.not_function (h : part.IsDatum) :
    part.predefined ≠ some (.composite .function) := by
  intro hfunction
  obtain ⟨p, -, hp, hkind⟩ | ⟨_, hnone, -⟩ := h.predefined_or_reference
  · rw [Option.some.inj (hp.symm.trans hfunction)] at hkind
    cases hkind
  · rw [hfunction] at hnone
    cases hnone

theorem IsGroup.not_function (h : part.IsGroup) :
    part.predefined ≠ some (.composite .function) := by
  intro hfunction
  rw [h.unnamed.1] at hfunction
  cases hfunction

theorem flags_of_plain (h : part.collection? = none) :
    part.union = false ∧ part.intersection = false ∧ (part.array || part.dictionary) = false ∧
      part.genericArguments = false := by
  unfold collection? at h
  split_ifs at h
  simp_all

/-- A group that is no union has its members compared one by one. -/
theorem IsGroup.flags (h : part.IsGroup) (hunion : part.union = false) :
    part.intersection = false ∧ (part.array || part.dictionary) = true := by
  have hcollects := h.collects
  unfold collection? at hcollects
  split_ifs at hcollects <;> simp_all

variable {lineage : Lineage}

/-- A reference accepts what refers to the same or to something below it, on the same side of
    `isSelf`. -/
theorem leafAccepts_reference_iff {x y : TypePart} {h : Handle}
    (hreference : x.reference = some h) : x.leafAccepts lineage y = true ↔
      ∃ k, y.reference = some k ∧ x.isSelf = y.isSelf ∧
        lineage.descends h Lineage.limit k = true := by
  rw [leafAccepts, hreference]
  cases y.reference <;> simp

/-- A predefined type that is no kind of composite accepts itself, and two of them accept
    everything. -/
theorem leafAccepts_predefined_iff {x y : TypePart} {p : Predefined}
    (hreference : x.reference = none)
    (hpredefined : x.predefined = some p) (hkind : p.kind? = none) :
    x.leafAccepts lineage y = true ↔ p = .any ∨ p = .wildcard ∨ y.predefined = some p := by
  rw [leafAccepts, hreference, hpredefined]
  cases p with
  | composite kind => cases hkind
  | _ => simp

/-- A datum that accepts a group accepts everything. -/
theorem leafAccepts_of_group {x y : TypePart} (hx : x.IsDatum) (hy : y.IsGroup)
    (hxy : x.leafAccepts lineage y = true) (z : TypePart) : x.leafAccepts lineage z = true := by
  obtain ⟨hypredefined, hyreference⟩ := hy.unnamed
  obtain ⟨p, hreference, hp, hkind⟩ | ⟨h, -, hreference⟩ := hx.predefined_or_reference
  · rw [leafAccepts_predefined_iff hreference hp hkind, hypredefined] at hxy
    rw [leafAccepts_predefined_iff hreference hp hkind]
    rcases hxy with hany | hwildcard | hcontra
    · exact .inl hany
    · exact .inr (.inl hwildcard)
    · cases hcontra
  · obtain ⟨k, hk, -⟩ := (leafAccepts_reference_iff hreference).mp hxy
    rw [hyreference] at hk
    cases hk

theorem leafAccepts_trans (hbounded : lineage.Bounded) {x y z : TypePart}
    (hx : x.IsDatum) (hy : y.IsDatum)
    (hxy : x.leafAccepts lineage y = true) (hyz : y.leafAccepts lineage z = true) :
      x.leafAccepts lineage z = true := by
  obtain ⟨p, hreference, hp, hkind⟩ | ⟨h, -, hreference⟩ := hx.predefined_or_reference
  · rw [leafAccepts_predefined_iff hreference hp hkind] at hxy ⊢
    rcases hxy with hany | hwildcard | hyp
    · exact .inl hany
    · exact .inr (.inl hwildcard)
    · -- What stands in between is the same predefined type.
      obtain ⟨_, hyreference, -, -⟩ | ⟨_, hnone, -⟩ := hy.predefined_or_reference
      · exact (leafAccepts_predefined_iff hyreference hyp hkind).mp hyz
      · rw [hyp] at hnone
        cases hnone
  · obtain ⟨k, hk, hself, hhk⟩ := (leafAccepts_reference_iff hreference).mp hxy
    obtain ⟨l, hl, hself', hkl⟩ := (leafAccepts_reference_iff hk).mp hyz
    exact (leafAccepts_reference_iff hreference).mpr ⟨l, hl, hself.trans hself',
      Lineage.descends_trans hbounded hhk hkl⟩

end TypePart

namespace Branch

variable {lineage : Lineage} {a b c g : Branch} {as bs cs : List Branch}

/-- A branch of data: leaves, and groups of such branches. -/
inductive Data : Branch → Prop where
  | leaf {part : TypePart} : part.IsDatum → Data (.node part [])
  | group {part : TypePart} {children : List Branch} :
    part.IsGroup → (∀ b ∈ children, Data b) → Data (.node part children)

theorem Data.single (h : Data b) : b.part.variadic = false := by
  cases h with
  | leaf hdatum => exact hdatum.single
  | group hgroup _ => exact hgroup.single

theorem Data.alternative (h : Data b) (hg : g ∈ b.alternatives) : Data g := by
  induction h with
  | leaf hdatum =>
    rw [alternatives_of_not_union (flags_of_plain hdatum.plain).1, List.mem_singleton] at hg
    exact hg ▸ .leaf hdatum
  | @group part children hgroup hchildren ih =>
    cases hunion : part.union with
    | true =>
      rw [alternatives_of_union hunion, mem_alternativesIn] at hg
      obtain ⟨child, hchild, hg⟩ := hg
      exact ih child hchild hg
    | false =>
      rw [alternatives_of_not_union hunion, List.mem_singleton] at hg
      exact hg ▸ .group hgroup hchildren

/-- What accepts something that is no union does so by one of its alternatives. -/
theorem exists_alternative_accepts (hg : g.part.union = false) (h : accepts lineage b g = true) :
    ∃ b' ∈ b.alternatives, accepts lineage b' g = true := by
  induction b using rec_children with
  | node part children ih =>
    cases hunion : part.union with
    | true =>
      obtain ⟨child, hchild, haccepts⟩ := (accepts_union_iff hunion hg).mp h
      obtain ⟨b', hb', haccepts⟩ := ih child hchild haccepts
      rw [alternatives_of_union hunion]
      exact ⟨b', mem_alternativesIn.mpr ⟨child, hchild, hb'⟩, haccepts⟩
    | false =>
      rw [alternatives_of_not_union hunion]
      exact ⟨_, List.mem_singleton_self _, h⟩

/-- It is enough to compare the alternatives of what stands in between with those of
    what is given. -/
theorem accepts_of_alternatives
    (hstep : ∀ b' ∈ b.alternatives, ∀ c' : Branch,
      c'.part.union = false → accepts lineage a b' = true →
      accepts lineage b' c' = true → accepts lineage a c' = true)
    (hab : accepts lineage a b = true) (hbc : accepts lineage b c = true) :
      accepts lineage a c = true := by
  rw [accepts_iff_alternatives]
  intro c' hc'
  have hc'union := not_union_of_mem_alternatives hc'
  obtain ⟨b', hb', hbc'⟩ :=
    exists_alternative_accepts hc'union (accepts_iff_alternatives.mp hbc c' hc')
  exact hstep b' hb' c' hc'union (accepts_iff_alternatives.mp hab b' hb') hbc'

theorem lockstep_trans (has : ∀ a ∈ as, a.part.variadic = false)
    (hbs : ∀ b ∈ bs, b.part.variadic = false)
    (hstep : ∀ a ∈ as, ∀ b ∈ bs, ∀ c, accepts lineage a b = true → accepts lineage b c = true →
      accepts lineage a c = true)
    (hab : lockstep lineage as bs = true) (hbc : lockstep lineage bs cs = true) :
      lockstep lineage as cs = true := by
  rw [lockstep_iff_forall₂ has] at hab ⊢
  rw [lockstep_iff_forall₂ hbs] at hbc
  clear has hbs
  induction hab generalizing cs with
  | nil =>
    cases hbc
    exact .nil
  | @cons a b as bs hab _ ih =>
    cases hbc with
    | cons hbc hrest =>
      refine .cons (hstep a List.mem_cons_self b List.mem_cons_self _ hab hbc) (ih ?_ hrest)
      exact fun a ha b hb => hstep a (List.mem_cons_of_mem _ ha) b (List.mem_cons_of_mem _ hb)

/-- Outside unions, data passes the demand for `inout` on. -/
theorem Data.inout_of_accepts (hb : Data b) (hunion : b.part.union = false)
    (hc : c.part.union = false)
    (hbc : accepts lineage b c = true) (hinout : b.part.inout = true) : c.part.inout = true := by
  cases hb with
  | leaf hdatum =>
      exact Branch.inout_of_accepts hunion (flags_of_plain hdatum.plain).2.1 hc hbc hinout
  | group hgroup _ => exact Branch.inout_of_accepts hunion (hgroup.flags hunion).1 hc hbc hinout

/-- Acceptance is transitive with data on the expected side and in between. -/
theorem Data.accepts_of_accepts (hbounded : lineage.Bounded) (ha : Data a) (hb : Data b)
    (hab : accepts lineage a b = true) (hbc : accepts lineage b c = true) :
      accepts lineage a c = true := by
  induction ha generalizing b c with
  | @leaf part hdatum =>
    obtain ⟨hunion, hintersection, hmembers, hgeneric⟩ := flags_of_plain hdatum.plain
    refine accepts_of_alternatives (fun b' hb' c' hc' hab hbc => ?_) hab hbc
    have hb'union := not_union_of_mem_alternatives hb'
    have hb'data := hb.alternative hb'
    rw [accepts_leaf_iff hunion hintersection hdatum.not_function hmembers hb'union] at hab
    rw [accepts_leaf_iff hunion hintersection hdatum.not_function hmembers hc']
    obtain ⟨hinout, hleaf, -⟩ := hab
    refine ⟨fun h => hb'data.inout_of_accepts hb'union hc' hbc (hinout h), ?_, ?_⟩
    · cases hb'data with
      | leaf hdatum' =>
        obtain ⟨hunion', hintersection', hmembers', -⟩ := flags_of_plain hdatum'.plain
        rw [accepts_leaf_iff hunion' hintersection' hdatum'.not_function hmembers' hc'] at hbc
        exact leafAccepts_trans hbounded hdatum hdatum' hleaf hbc.2.1
      | group hgroup' _ => exact leafAccepts_of_group hdatum hgroup' hleaf _
    · intro hcontra
      rw [hgeneric] at hcontra
      cases hcontra
  | @group part children hgroup hchildren ih =>
    refine accepts_of_alternatives (fun b' hb' c' hc' hab hbc => ?_) hab hbc
    have hb'union := not_union_of_mem_alternatives hb'
    have hb'data := hb.alternative hb'
    cases hunion : part.union with
    | true =>
      obtain ⟨e, he, hab⟩ := (accepts_union_iff hunion hb'union).mp hab
      exact (accepts_union_iff hunion hc').mpr ⟨e, he, ih e he hb'data hab hbc⟩
    | false =>
      obtain ⟨hintersection, hmembers⟩ := hgroup.flags hunion
      rw [accepts_group_iff hunion hintersection hgroup.not_function hmembers hb'union] at hab
      rw [accepts_group_iff hunion hintersection hgroup.not_function hmembers hc']
      obtain ⟨hinout, harray, hdictionary, hab⟩ := hab
      have hinout' := fun h => hb'data.inout_of_accepts hb'union hc' hbc (hinout h)
      cases hb'data with
      | leaf hdatum' =>
        -- A leaf has none of the flags that the group asks for.
        have hcontra := (flags_of_plain hdatum'.plain).2.2.1
        simp only [Branch.part] at harray hdictionary
        rw [← harray, ← hdictionary, hmembers] at hcontra
        cases hcontra
      | @group part' children' hgroup' hchildren' =>
        have hunion' : part'.union = false := hb'union
        obtain ⟨hintersection', hmembers'⟩ := hgroup'.flags hunion'
        rw [accepts_group_iff hunion' hintersection' hgroup'.not_function hmembers' hc'] at hbc
        obtain ⟨-, harray', hdictionary', hbc⟩ := hbc
        refine ⟨hinout', harray.trans harray', hdictionary.trans hdictionary', ?_⟩
        exact lockstep_trans (fun a ha => (hchildren a ha).single)
          (fun b hb => (hchildren' b hb).single)
          (fun a ha b hb _ => ih a ha (hchildren' b hb)) hab hbc

end Branch

namespace TypeTree

/-- A type of data: at least a root, and every part a datum without parts under it or a group. -/
structure IsData (type : TypeTree) : Prop where
  filled : type.parts ≠ []
  sorts : ∀ i < type.size, ((type.part i).IsDatum ∧ type.children i = []) ∨ (type.part i).IsGroup

instance (type : TypeTree) : Decidable type.IsData :=
  decidable_of_iff (type.parts ≠ [] ∧
      ∀ i < type.size, ((type.part i).IsDatum ∧ type.children i = []) ∨ (type.part i).IsGroup)
    ⟨fun h => ⟨h.1, h.2⟩, fun h => ⟨h.filled, h.sorts⟩⟩

theorem IsData.data_branchTo {type : TypeTree} (h : type.IsData) (depth : Nat) {i : Nat}
    (hi : i < type.size) : (type.branchTo depth i).Data := by
  induction depth generalizing i with
  | zero =>
    rcases h.sorts i hi with ⟨hdatum, -⟩ | hgroup
    · exact .leaf hdatum
    · exact .group hgroup fun _ hb => absurd hb List.not_mem_nil
  | succ depth ih =>
    rw [branchTo]
    rcases h.sorts i hi with ⟨hdatum, hnone⟩ | hgroup
    · rw [hnone]
      exact .leaf hdatum
    · refine .group hgroup fun b hb => ?_
      obtain ⟨child, hchild, rfl⟩ := List.mem_map.mp hb
      exact ih (mem_children.mp hchild).1

/-- Acceptance is transitive on types of data, in a lineage that is never walked to the limit.
    Between trees there is an answer; where parts stand in other ways there may be none, but never
    the other one. -/
theorem accepts_trans {lineage : Lineage} (hbounded : lineage.Bounded)
    {a b c : TypeTree} (ha : a.IsData)
    (hb : b.IsData) (hc : c.parts ≠ []) (hab : a.accepts? lineage b = some true)
    (hbc : b.accepts? lineage c = some true) :
    a.accepts? lineage c ≠ some false ∧
      (a.WellFormed → c.WellFormed → a.accepts? lineage c = some true) := by
  have hyes : ∀ yes, a.accepts? lineage c = some yes → yes = true := by
    intro yes hac
    obtain ⟨m, hab⟩ := exists_accepts_branchTo ha.filled hb.filled hab
    obtain ⟨n, hbc⟩ := exists_accepts_branchTo hb.filled hc hbc
    obtain ⟨k, hac⟩ := exists_accepts_branchTo ha.filled hc hac
    rw [← hac (m + n + k) (m + n + k) (by omega) (by omega)]
    have hroot : ∀ {type : TypeTree}, type.IsData → 0 < type.size :=
      fun h => List.length_pos_iff.mpr h.filled
    exact (ha.data_branchTo _ (hroot ha)).accepts_of_accepts hbounded
      (hb.data_branchTo (m + n + k) (hroot hb))
      (hab _ _ (by omega) (by omega)) (hbc _ _ (by omega) (by omega))
  refine ⟨fun h => Bool.false_ne_true (hyes false h), fun hwf hwf' => ?_⟩
  obtain ⟨yes, h⟩ := Option.isSome_iff_exists.mp (hwf.accepts?_isSome hwf' lineage)
  rw [h, hyes yes h]

/-- Three types, each the super type of the one before. -/
def threeLevels : Lineage where
  superType := fun h => if h = ⟨0, 0⟩ then some ⟨1, 0⟩ else if h = ⟨1, 0⟩ then some ⟨2, 0⟩ else none
  kind := fun _ => none

/-- Arrays of the instances of a composite, or an integer. -/
def arraysOf (h : Handle) : TypeTree :=
  ⟨[{ union := true },
    { parent := some 0, array := true, inout := true },
    { parent := some 1, reference := some h },
    { parent := some 0, predefined := some .integer }]⟩

theorem accepts_trans_arraysOf :
    threeLevels.Bounded ∧ (arraysOf ⟨2, 0⟩).IsData ∧ (arraysOf ⟨1, 0⟩).IsData ∧
      (arraysOf ⟨2, 0⟩).WellFormed ∧ (arraysOf ⟨0, 0⟩).WellFormed ∧
      (arraysOf ⟨2, 0⟩).accepts? threeLevels (arraysOf ⟨1, 0⟩) = some true ∧
      (arraysOf ⟨1, 0⟩).accepts? threeLevels (arraysOf ⟨0, 0⟩) = some true ∧
      (arraysOf ⟨2, 0⟩).accepts? threeLevels (arraysOf ⟨0, 0⟩) = some true := by
  have hbounded : threeLevels.Bounded := by
    intro h
    have hthree : threeLevels.ancestor 3 h = none := by
      simp only [Lineage.ancestor, threeLevels]
      split_ifs <;> simp_all
    rw [show Lineage.limit + 1 = 3 + 1022 from rfl, Lineage.ancestor_add, hthree]
    rfl
  have ha : (arraysOf ⟨2, 0⟩).IsData := by decide
  have hb : (arraysOf ⟨1, 0⟩).IsData := by decide
  have hwf : (arraysOf ⟨2, 0⟩).WellFormed := by decide
  have hwf' : (arraysOf ⟨0, 0⟩).WellFormed := by decide
  have hab : (arraysOf ⟨2, 0⟩).accepts? threeLevels (arraysOf ⟨1, 0⟩) =
    some true := by decide +kernel
  have hbc : (arraysOf ⟨1, 0⟩).accepts? threeLevels (arraysOf ⟨0, 0⟩) =
    some true := by decide +kernel
  exact ⟨hbounded, ha, hb, hwf, hwf', hab, hbc,
    (accepts_trans hbounded ha hb (List.cons_ne_nil _ _) hab hbc).2 hwf hwf'⟩

end TypeTree

end CompositeGraph
