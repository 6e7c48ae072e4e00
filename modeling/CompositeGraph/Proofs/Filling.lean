/-
  FILLING: how a type grows while a program's type is read.

  Types, signatures and declarations are read into one growing tree.  Each node is written at a
  part, and what it adds stands below that part.  The mutual recursion over type nodes is gone
  through once, and everything is kept track of that is asked about types elsewhere.

    1. GROWTH.        `Extends`: writing a type at a part leaves every other part alone, and puts
                      what it adds below that part.  A parameter list is among what it adds iff the
                      type has a function type in it.
    2. GROWING.       `Grows`: besides, references are to what lookups find, and
                      the tree stays sound.
    3. FILLING.       The mutual recursion over types, one case per form.
    4. DECLARATIONS.  Parameters, signatures and declared composites.
-/
import CompositeGraph.Evaluation.Declarations
import CompositeGraph.Proofs.Shapes

namespace CompositeGraph

/-! ## Growth -/

/-- Where a part stands and whether it collects parameters: what the readers of a
    signature go by. -/
def TypePart.role (part : TypePart) : Option Nat × Bool × Bool :=
  (part.parent, part.parameters, part.genericParameters)

namespace TypeTree

/-- The part at `index`, or one that was not there yet. -/
def Within (base : TypeTree) (index i : Nat) : Prop := i = index ∨ base.size ≤ i

theorem Within.mono {base type : TypeTree} {index i : Nat} (h : type.Within index i)
    (hle : base.size ≤ type.size) : base.Within index i := h.imp_right (Nat.le_trans hle)

/-- A tree grown out of another at one part.  Other parts are as they were, that part keeps its
    role, and what is new stands below it.  Some new part collects parameters iff `functional`. -/
structure Extends (base : TypeTree) (index : Nat) (functional : Bool) (type : TypeTree) : Prop where
  size_le : base.size ≤ type.size
  kept : ∀ i < base.size, i ≠ index → type.part i = base.part i
  role : ∀ i < base.size, (type.part i).role = (base.part i).role
  under : ∀ i, base.size ≤ i → i < type.size → ∃ j < i,
    (type.part i).parent = some j ∧ base.Within index j
  functional_iff : functional = true ↔ ∃ i, base.size ≤ i ∧ (type.part i).parameters = true

variable {base type type' : TypeTree} {index i j : Nat} {b b' : Bool}

namespace Extends

theorem parent_eq (h : base.Extends index b type) (hi : i < base.size) :
    (type.part i).parent = (base.part i).parent := congrArg (·.1) (h.role i hi)

theorem parameters_eq (h : base.Extends index b type) (hi : i < base.size) :
    (type.part i).parameters = (base.part i).parameters := congrArg (·.2.1) (h.role i hi)

theorem refl (base : TypeTree) (index : Nat) : base.Extends index false base where
  size_le := Nat.le_refl _
  kept _ _ _ := rfl
  role _ _ := rfl
  under k hk hlt := absurd hlt (by omega)
  functional_iff := by
    constructor
    · intro h
      cases h
    · rintro ⟨k, hk, hflag⟩
      exact absurd (lt_size_of_parameters hflag) (by omega)

/-- One growth after another, at the same part or below it. -/
theorem trans (h : base.Extends index b type) (hi : base.Within index i)
    (h' : type.Extends i b' type') : base.Extends index (b || b') type' where
  size_le := Nat.le_trans h.size_le h'.size_le
  kept k hk hne := by
    have hki : k ≠ i := by
      rcases hi with rfl | hi
      · exact hne
      · omega
    rw [h'.kept k (Nat.lt_of_lt_of_le hk h.size_le) hki, h.kept k hk hne]
  role k hk := by rw [h'.role k (Nat.lt_of_lt_of_le hk h.size_le), h.role k hk]
  under k hk hlt := by
    rcases Nat.lt_or_ge k type.size with hold | hnew
    · obtain ⟨j, hlt, hj, hwithin⟩ := h.under k hk hold
      exact ⟨j, hlt, (h'.parent_eq hold).trans hj, hwithin⟩
    · obtain ⟨j, hlt, hj, hwithin⟩ := h'.under k hnew hlt
      refine ⟨j, hlt, hj, ?_⟩
      rcases hwithin with rfl | hwithin
      · exact hi
      · exact Or.inr (Nat.le_trans h.size_le hwithin)
  functional_iff := by
    rw [Bool.or_eq_true, h.functional_iff, h'.functional_iff]
    constructor
    · rintro (⟨k, hk, hflag⟩ | ⟨k, hk, hflag⟩)
      · exact ⟨k, hk, (h'.parameters_eq (lt_size_of_parameters hflag)).trans hflag⟩
      · exact ⟨k, Nat.le_trans h.size_le hk, hflag⟩
    · rintro ⟨k, hk, hflag⟩
      rcases Nat.lt_or_ge k type.size with hold | hnew
      · exact Or.inl ⟨k, hk, (h'.parameters_eq hold).symm.trans hflag⟩
      · exact Or.inr ⟨k, hnew, hflag⟩

theorem role_of_push (h : (type.push (some index)).Extends type.size b type') :
    (type'.part type.size).role = (some index, false, false) := by
  rw [h.role _ (by simp), part_push, if_pos rfl]
  rfl

variable (hi : index < type.size)

include hi

variable {change : TypePart → TypePart}

/-- A change that leaves the roles alone. -/
theorem adjust (h : ∀ p, (change p).role = p.role) :
    type.Extends index false (type.adjust index change) where
  size_le := Nat.le_of_eq (size_adjust ..).symm
  kept k _ hne := by rw [part_adjust _ _ hi, if_neg (Ne.symm hne)]
  role k _ := by
    rw [part_adjust _ _ hi]
    split
    · exact h _
    · rfl
  under k hk hlt := absurd hlt (by rw [size_adjust]; omega)
  functional_iff := by
    constructor
    · intro h
      cases h
    · rintro ⟨k, hk, hflag⟩
      exact absurd (lt_size_of_parameters hflag) (by rw [size_adjust]; omega)

/-- A new part, with the flags a change gives it. -/
theorem push (h : ∀ p, (change p).parent = p.parent) :
    type.Extends index (change { parent := some index }).parameters
      ((type.push (some index)).adjust type.size change) := by
  have hpart : ∀ k, ((type.push (some index)).adjust type.size change).part k =
      if type.size = k then change { parent := some index } else type.part k := by
    intro k
    rw [part_adjust _ _ (by simp), part_push]
    split
    · rw [if_pos (by omega)]
    · rw [if_neg (by omega)]
  refine ⟨?_, ?_, ?_, ?_, ?_⟩
  · rw [size_adjust, size_push]
    omega
  · intro k hk _
    rw [hpart, if_neg (by omega)]
  · intro k hk
    rw [hpart, if_neg (by omega)]
  · intro k hk hlt
    rw [size_adjust, size_push] at hlt
    rw [hpart, if_pos (by omega)]
    exact ⟨index, by omega, h _, Or.inl rfl⟩
  · constructor
    · intro hflag
      exact ⟨type.size, Nat.le_refl _, by rw [hpart, if_pos rfl, hflag]⟩
    · rintro ⟨k, hk, hflag⟩
      rw [hpart] at hflag
      split at hflag
      · exact hflag
      · exact absurd (lt_size_of_parameters hflag) (by omega)

theorem push_blank : type.Extends index false (type.push (some index)) := by
  have h := push hi (fun p => rfl : ∀ p : TypePart, (id p).parent = p.parent)
  have hid : (type.push (some index)).adjust type.size id = type.push (some index) := by
    rw [TypeTree.adjust, List.modify_id]
  rwa [hid] at h

/-- What grows at a part that was just added grows below its parent. -/
theorem of_push (h : (type.push (some index)).Extends type.size b type') :
    type.Extends index b type' :=
  Bool.false_or b ▸ (push_blank hi).trans (Or.inr (Nat.le_refl _)) h

omit hi in
/-- A part that was just added takes names, or whatever leaves its role alone. -/
theorem name {parent : Option Nat} (h : (base.push parent).Extends base.size b type)
    (hchange : ∀ p, (change p).role = p.role) :
    (base.push parent).Extends base.size b (type.adjust base.size change) := by
  have hlt : base.size < type.size := Nat.lt_of_lt_of_le (by simp) h.size_le
  exact Bool.or_false b ▸ h.trans (Or.inl rfl) (Extends.adjust hlt hchange)

end Extends

/-- A new part below another collects what is asked for. -/
theorem collect_new_extends (hi : index < type.size) (collection : Collection) :
    type.Extends index (collection == .parameters)
      (type.collect (some index) none collection).1 := by
  have h := Extends.push hi fun p =>
    (by cases collection <;> rfl : (p.withCollection collection).parent = p.parent)
  have hflag : (TypePart.withCollection { parent := some index } collection).parameters =
      (collection == .parameters) := by
    cases collection <;> rfl
  rwa [hflag] at h

/-- The part that collects elements: the one asked for, or a new one below it. -/
theorem collect_extends (hi : index < type.size) (collection : Collection)
    (h : ∀ p : TypePart, (p.withCollection collection).role = p.role) :
    type.Extends index false (type.collect none (some index) collection).1 ∧
      type.Within index (type.collect none (some index) collection).2 ∧
      (type.collect none (some index) collection).2 <
        (type.collect none (some index) collection).1.size := by
  have hpart : type.part? index = some (type.part index) := by
    rw [part, part?, List.getElem?_eq_getElem hi]
    rfl
  simp only [collect, hpart]
  split
  · have hflag : (TypePart.withCollection { parent := some index } collection).parameters = false :=
      congrArg (·.2.1) (h { parent := some index })
    have hgrown := Extends.push hi (fun p => congrArg (·.1) (h p))
    rw [hflag] at hgrown
    exact ⟨hgrown, Or.inr (Nat.le_refl _), by simp⟩
  · exact ⟨Extends.adjust hi h, Or.inl rfl, by simpa using hi⟩

end TypeTree

/-! ## Growing -/

/-- What a type may refer to: what some name means as a composite. -/
def Lookup.Offers (lookup : Lookup) (h : Handle) : Prop :=
  ∃ start name, (lookup.find? start name .composite false).bind (·.matching) = some h

namespace TypeTree

/-- A tree grown out of another at one part while a type is read.  It refers to nothing new but what
    is offered.  It is sound if the other was; where a plain type is written, if also `free`. -/
structure Grows (lookup : Lookup) (free : Prop) (base : TypeTree) (index : Nat) (functional : Bool)
    (type : TypeTree) : Prop extends base.Extends index functional type where
  refers : ∀ h ∈ type.references, h ∈ base.references ∨ lookup.Offers h
  sound : base.Sound → free → type.Sound

variable {lookup : Lookup} {free free' : Prop} {base type type' : TypeTree}
  {index i : Nat} {b b' : Bool}

theorem mem_references_push {parent : Option Nat} {h : Handle}
    (hh : h ∈ (type.push parent).references) : h ∈ type.references := by
  obtain ⟨p, hp, hx⟩ := mem_references.mp hh
  rcases List.mem_append.mp hp with hp | hp
  · exact mem_references.mpr ⟨p, hp, hx⟩
  · rw [List.mem_singleton.mp hp] at hx
    cases hx

/-- A part that changes keeps its reference, or gets one that is fine. -/
theorem mem_references_adjust {K : Handle → Prop} {h : Handle}
    (hchange : ∀ p x, (change p).reference = some x → p.reference = some x ∨ K x)
    (hh : h ∈ (type.adjust index change).references) : h ∈ type.references ∨ K h := by
  obtain ⟨p, hp, hx⟩ := mem_references.mp hh
  obtain ⟨n, hn⟩ := List.mem_iff_getElem?.mp hp
  rw [TypeTree.adjust, List.getElem?_modify] at hn
  obtain ⟨q, hq, rfl⟩ := Option.map_eq_some_iff.mp hn
  have hmem : q ∈ type.parts := List.mem_of_getElem? hq
  split at hx
  · exact (hchange q h hx).imp_left fun hx => mem_references.mpr ⟨q, hmem, hx⟩
  · exact Or.inl (mem_references.mpr ⟨q, hmem, hx⟩)

theorem reference_withCollection (p : TypePart) (collection : Collection) :
    (p.withCollection collection).reference = p.reference := by
  cases collection <;> rfl

theorem mem_references_collect {parent index : Option Nat} {collection : Collection} {h : Handle}
    (hh : h ∈ (type.collect parent index collection).1.references) : h ∈ type.references := by
  have hsame : ∀ p x, (TypePart.withCollection p collection).reference = some x →
    p.reference = some x ∨ False :=
    fun p x hx => Or.inl (reference_withCollection p collection ▸ hx)
  have hadd : ∀ parent,
    h ∈ ((type.push parent).adjust type.size (·.withCollection collection)).references →
      h ∈ type.references := fun _ hx =>
        mem_references_push ((mem_references_adjust hsame hx).resolve_right id)
  unfold collect at hh
  dsimp only at hh
  split at hh
  · exact hadd _ hh
  · split at hh
    · exact hadd _ hh
    · split at hh
      · exact hadd _ hh
      · exact (mem_references_adjust hsame hh).resolve_right id

/-- A part that was just added collects nothing yet. -/
theorem isCollection_push (type : TypeTree) (parent : Option Nat) :
    ((type.push parent).part type.size).isCollection = false := by
  rw [part_push, if_pos rfl]
  rfl

namespace Grows

theorem refl (base : TypeTree) (index : Nat) : base.Grows lookup free index false base :=
  ⟨Extends.refl base index, fun _ => Or.inl, fun h _ => h⟩

theorem imp (h : base.Grows lookup free index b type) (hfree : free' → free) :
    base.Grows lookup free' index b type :=
  { h with sound := fun hs hf => h.sound hs (hfree hf) }

/-- What is sound in any case is sound if some condition holds. -/
theorem anyway (h : base.Grows lookup True index b type) : base.Grows lookup free index b type :=
  h.imp fun _ => trivial

/-- One growth after another, at the same part or below it. -/
theorem trans (h : base.Grows lookup free index b type) (hi : base.Within index i)
    (h' : type.Grows lookup free i b' type') : base.Grows lookup free index (b || b') type' where
  toExtends := h.toExtends.trans hi h'.toExtends
  refers x hx := (h'.refers x hx).elim (h.refers x) Or.inr
  sound hs hf := h'.sound (h.sound hs hf) hf

/-- A part that was just added is free to take a plain type. -/
theorem pushed {parent : Option Nat}
    (h : (base.push parent).Grows lookup (((base.push parent).part base.size).isCollection = false)
      base.size b type) :
    (base.push parent).Grows lookup True base.size b type :=
      h.imp fun _ => isCollection_push base parent

variable (hi : index < type.size)

include hi

/-- A change that leaves the role of a part alone. -/
theorem adjust (hrole : ∀ p, (change p).role = p.role)
    (hreference : ∀ p x, (change p).reference = some x → p.reference = some x ∨ lookup.Offers x)
    (hsingle : free → (type.part index).Single → (change (type.part index)).Single) :
    type.Grows lookup free index false (type.adjust index change) where
  toExtends := Extends.adjust hi hrole
  refers _ := mem_references_adjust hreference
  sound hs hf := hs.adjust index (fun p => congrArg (·.1) (hrole p)) (hsingle hf)

/-- A change to neither role nor reference nor what a part collects. -/
theorem adjust_same (hrole : ∀ p, (change p).role = p.role)
    (hreference : ∀ p x, (change p).reference = some x → p.reference = some x ∨ lookup.Offers x)
    (hcollects : ∀ p a, (change p).collects a = p.collects a)
    (hpredefined : ∀ p, (change p).predefined = p.predefined ∨
      (change p).predefined ≠ some (.composite .function)) :
    type.Grows lookup free index false (type.adjust index change) :=
  adjust hi hrole hreference fun _ h => h.congr (hcollects _) (hpredefined _)

theorem anything : type.Grows lookup free index false (type.adjust index Run.asAnything) :=
  adjust_same hi (fun _ => rfl) (fun _ _ => Or.inl) (fun _ _ => rfl) fun _ =>
    .inr fun h => by cases h

omit hi in
/-- A part that was just added is filled, or stays blank and becomes the type of anything. -/
theorem filled {parent : Option Nat} (h : (base.push parent).Grows lookup free base.size b type) :
    (base.push parent).Grows lookup free base.size b
      (if (type.part base.size).isBlank then type.adjust base.size Run.asAnything else type) := by
  split
  · exact Bool.or_false b ▸ h.trans (Or.inl rfl) (anything (Nat.lt_of_lt_of_le (by simp) h.size_le))
  · exact h

theorem push_blank : type.Grows lookup free index false (type.push (some index)) :=
  ⟨Extends.push_blank hi, fun _ hx => Or.inl (mem_references_push hx), fun hs _ => hs.push_below hi⟩

/-- What grows at a part that was just added grows below its parent. -/
theorem of_push (h : (type.push (some index)).Grows lookup free type.size b type') :
    type.Grows lookup free index b type' :=
  Bool.false_or b ▸ (push_blank hi).trans (Or.inr (Nat.le_refl _)) h

/-- A new part below another collects what is asked for. -/
theorem collect_new (collection : Collection) :
    type.Grows lookup free index (collection == .parameters)
      (type.collect (some index) none collection).1 where
  toExtends := collect_new_extends hi collection
  refers _ hx := Or.inl (mem_references_collect hx)
  sound hs _ := (hs.collect_below hi collection).1

/-- What grows at a part that was just added to collect grows below its parent. -/
theorem of_collect {collection : Collection}
    (h : (type.collect (some index) none collection).1.Grows lookup free type.size b type') :
    type.Grows lookup free index (collection == .parameters || b) type' :=
  (collect_new hi collection).trans (Or.inr (Nat.le_refl _)) h

/-- The part that collects elements: the one asked for, or a new one below it. -/
theorem collect_at (collection : Collection)
    (h : ∀ p : TypePart, (p.withCollection collection).role = p.role) :
    type.Grows lookup free index false (type.collect none (some index) collection).1 ∧
      type.Within index (type.collect none (some index) collection).2 ∧
      (type.collect none (some index) collection).2 <
        (type.collect none (some index) collection).1.size := by
  obtain ⟨hgrown, hwithin, hlt⟩ := collect_extends hi collection h
  exact ⟨⟨hgrown, fun _ hx => Or.inl (mem_references_collect hx), fun hs _ =>
    (hs.collect_at hi collection).1⟩, hwithin, hlt⟩

end Grows

/-- A type read on from another.  It is sound if that one is, and refers to nothing
    new but what is offered. -/
def Continues (lookup : Lookup) (base type : TypeTree) : Prop :=
  (base.Sound → type.Sound) ∧ ∀ h ∈ type.references, h ∈ base.references ∨ lookup.Offers h

theorem Continues.refl (type : TypeTree) : type.Continues lookup type := ⟨id, fun _ => Or.inl⟩

theorem Continues.trans (h : base.Continues lookup type) (h' : type.Continues lookup type') :
    base.Continues lookup type' :=
  ⟨fun hs => h'.1 (h.1 hs), fun x hx => (h'.2 x hx).elim (h.2 x) Or.inr⟩

theorem Grows.continues (h : base.Grows lookup True index b type) : base.Continues lookup type :=
  ⟨fun hs => h.sound hs trivial, h.refers⟩

/-- The part that collects what a composite declares, in a type that may have no part yet. -/
theorem continues_collect (type : TypeTree) (collection : Collection) :
    type.Continues lookup (type.collect none (some 0) collection).1 ∧
      (type.collect none (some 0) collection).2 <
        (type.collect none (some 0) collection).1.size := by
  refine ⟨⟨fun h => (h.collect_root collection).1, fun _ hx =>
    Or.inl (mem_references_collect hx)⟩, ?_⟩
  unfold collect
  dsimp only
  split
  · simp
  · next hpart =>
    split
    · simp
    · rw [size_adjust]
      exact (List.getElem?_eq_some_iff.mp hpart).1

end TypeTree

/-! ## Filling -/

namespace Run

open TypeTree

/-- With a lookup given, the run comes to an answer from any machine, leaves reports at most, and
    every answer is of the sort. -/
def Gives {α : Type} (lookup : Lookup) (x : Run α) (Q : α → Prop) : Prop :=
  ∀ m : Machine, m.lookup = lookup → ∃ a reports, x m = .ok (a, { m with reports }) ∧ Q a

section Gives

variable {α β : Type} {lookup : Lookup} {x : Run α} {f : α → Run β} {Q : α → Prop} {R : β → Prop}

theorem Gives.pure {a : α} (h : Q a) : Gives lookup (Pure.pure a) Q :=
  fun m _ => ⟨a, m.reports, rfl, h⟩

theorem Gives.bind (h : Gives lookup x Q) (h' : ∀ a, Q a → Gives lookup (f a) R) :
    Gives lookup (x >>= f) R := by
  intro m hm
  obtain ⟨a, reports, hx, ha⟩ := h m hm
  obtain ⟨b, reports', hf, hb⟩ := h' a ha { m with reports } hm
  refine ⟨b, reports', ?_, hb⟩
  show (x m >>= fun p => f p.1 p.2) = _
  rw [hx]
  exact hf

theorem Gives.mono (h : Gives lookup x Q) {Q' : α → Prop} (hQ : ∀ a, Q a → Q' a) :
    Gives lookup x Q' := by
  intro m hm
  obtain ⟨a, reports, hx, ha⟩ := h m hm
  exact ⟨a, reports, hx, hQ a ha⟩

theorem Gives.report {level : Level} {node : Option Node} {message : String} :
    Gives lookup (Run.report level node message) fun _ => True := fun _ _ => ⟨_, _, rfl, trivial⟩

end Gives

end Run

mutual

/-- Whether a type has a function type in it, itself counted. -/
def Node.hasFunctionType : Node → Bool
  | .mk _ form =>
    match form with
    | .functionType .. => true
    | .typeIdentifier _ genericArguments => Node.anyFunctionType genericArguments
    | .arrayType value => Node.optFunctionType value
    | .dictionaryType key value => Node.optFunctionType key || Node.optFunctionType value
    | .unionType subtypes => Node.anyFunctionType subtypes
    | .intersectionType subtypes => Node.anyFunctionType subtypes
    | .modifiedType _ value => Node.optFunctionType value
    | _ => false

def Node.optFunctionType : Option Node → Bool
  | none => false
  | some node => node.hasFunctionType

def Node.anyFunctionType : List Node → Bool
  | [] => false
  | node :: rest => node.hasFunctionType || Node.anyFunctionType rest

end

namespace Run

open TypeTree

variable {scope : Handle} {lookup : Lookup} {type : TypeTree} {index parent : Nat} {free : Prop}

theorem typeComposite_gives (name : String) :
    Gives lookup (typeComposite scope name) fun composite => ∀ h ∈ composite, lookup.Offers h := by
  rintro m rfl
  exact ⟨_, m.reports, rfl, fun h hh => ⟨scope, name, (Option.filter_eq_some_iff.mp hh).1⟩⟩

/-- A part is made to refer to a composite that was found. -/
theorem grows_refer (hi : index < type.size) {composite : Handle}
    (hoffers : lookup.Offers composite) :
    type.Grows lookup free index false (type.adjust index fun part =>
      { part with reference := some composite }) := by
  refine Grows.adjust_same hi (fun _ => rfl) ?_ (fun _ _ => rfl) fun _ => .inl rfl
  rintro _ _ ⟨⟩
  exact Or.inr hoffers

theorem role_marked (modifier : TypeModifier) (part : TypePart) :
    (marked modifier part).role = part.role := by
  cases modifier <;> simp only [marked] <;> first | rfl | (split <;> rfl)

theorem isCollection_marked (modifier : TypeModifier) (part : TypePart) :
    (marked modifier part).isCollection = part.isCollection := by
  cases modifier <;> simp only [marked] <;> first | rfl | (split <;> rfl)

theorem grows_marked (hi : index < type.size) (modifier : TypeModifier) :
    type.Grows lookup free index false (type.adjust index (marked modifier)) := by
  have hreference : ∀ p, (marked modifier p).reference = p.reference := by
    intro p
    cases modifier <;> simp only [marked] <;> first | rfl | (split <;> rfl)
  refine Grows.adjust_same hi (role_marked modifier)
    (fun p x hx => Or.inl (hreference p ▸ hx)) ?_ fun p => .inl ?_
  all_goals cases modifier <;> intros <;> simp only [marked] <;> first | rfl | (split <;> rfl)

theorem collectElements_gives (hi : index < type.size) (name : String) {collection : Collection}
    (h : ∀ p : TypePart, (p.withCollection collection).role = p.role) :
    Gives lookup (collectElements scope type index name collection) fun p =>
      type.Grows lookup True index false p.1 ∧ type.Within index p.2 ∧ p.2 < p.1.size := by
  refine Gives.bind (typeComposite_gives name) fun composite hoffers => ?_
  cases composite with
  | none => exact Gives.pure (Grows.collect_at hi collection h)
  | some composite =>
    refine Gives.pure ?_
    have hrefer : type.Grows lookup True index false _ := grows_refer hi (hoffers composite rfl)
    obtain ⟨hgrown, hwithin, hlt⟩ :=
      Grows.collect_at (Nat.lt_of_lt_of_le hi hrefer.size_le) .genericArguments fun _ => rfl
    refine ⟨hrefer.trans (Or.inl rfl) hgrown, ?_, hlt⟩
    rwa [Within, size_adjust] at hwithin

mutual

/-- Writing a type at a part grows the tree there.  The part must be free to take a plain type. -/
theorem fillPart_gives (node : Node) {type : TypeTree} {index : Nat} (hi : index < type.size) :
    Gives lookup (fillPart scope node type index)
      (type.Grows lookup ((type.part index).isCollection = false) index node.hasFunctionType) := by
  obtain ⟨range, form⟩ := node
  unfold fillPart
  cases form with
  | predefinedType name =>
    refine Gives.pure (Grows.adjust hi (fun _ => rfl) (fun _ _ => Or.inl) fun hfree _ => ?_)
    exact TypePart.single_of_collects_eq_false (TypePart.isCollection_eq_false_iff.mp hfree).1
  | protocolType =>
    refine Gives.pure
      (Grows.adjust_same hi (fun _ => rfl) (fun _ _ => Or.inl) (fun _ _ => rfl) fun _ => .inr ?_)
    exact fun h => by cases h
  | typeIdentifier identifier genericArguments =>
    -- what follows the name is the same whether or not a composite was found
    have hrest : ∀ t : TypeTree,
        type.Grows lookup ((type.part index).isCollection = false) index false t → Gives lookup
        (if genericArguments.isEmpty then pure t
          else addParts scope genericArguments (t.collect none (some index) .genericArguments).1
            (t.collect none (some index) .genericArguments).2)
        (type.Grows lookup ((type.part index).isCollection = false) index
          (Node.anyFunctionType genericArguments)) := by
      intro t ht
      split
      · next hempty =>
        rw [List.isEmpty_iff.mp hempty]
        exact Gives.pure ht
      · obtain ⟨hgrown, hwithin, hlt⟩ := Grows.collect_at (Nat.lt_of_lt_of_le hi ht.size_le)
          .genericArguments fun _ => rfl
        refine (addParts_gives genericArguments hlt).mono fun t' ht' => ?_
        exact (ht.trans (Or.inl rfl) hgrown).trans (hwithin.mono ht.size_le) ht'.anyway
    dsimp only
    split
    case' h_1 => refine Gives.bind (typeComposite_gives _) fun composite hoffers => ?_
    case' h_2 =>
      refine Gives.bind (Q := fun composite => ∀ h ∈ composite, lookup.Offers h)
        (Gives.pure fun _ h => by cases h)
        fun composite hoffers => ?_
    all_goals
      cases composite with
      | some composite => exact hrest _ (grows_refer hi (hoffers composite rfl))
      | none =>
        refine Gives.bind Gives.report fun _ _ =>
          hrest _ (Grows.adjust_same hi (fun _ => rfl) (fun _ _ => Or.inl)
          (fun _ _ => rfl) fun _ => .inr ?_)
        exact fun h => by cases h
  | arrayType value =>
    refine Gives.bind (collectElements_gives hi "Array" fun _ => rfl) fun p hp => ?_
    refine (addPart_gives value p.1 (some p.2)).mono fun t ht => ?_
    exact hp.1.anyway.trans hp.2.1 (ht.anyway.of_push hp.2.2)
  | dictionaryType key value =>
    refine Gives.bind (collectElements_gives hi "Dictionary" fun _ => rfl) fun p hp => ?_
    refine (addPart_gives key p.1 (some p.2)).bind fun t ht => ?_
    refine (addPart_gives value t (some p.2)).mono fun t' ht' => ?_
    have hlt : p.2 < t.size := Nat.lt_of_lt_of_le hp.2.2 (ht.of_push hp.2.2).size_le
    exact (hp.1.anyway.trans hp.2.1 (ht.anyway.of_push hp.2.2)).trans hp.2.1
      (ht'.anyway.of_push hlt)
  | unionType subtypes =>
    obtain ⟨hgrown, hwithin, hlt⟩ := Grows.collect_at hi .union fun _ => rfl
    exact (addParts_gives subtypes hlt).mono fun t ht => hgrown.trans hwithin ht.anyway
  | intersectionType subtypes =>
    obtain ⟨hgrown, hwithin, hlt⟩ := Grows.collect_at hi .intersection fun _ => rfl
    exact (addParts_gives subtypes hlt).mono fun t ht => hgrown.trans hwithin ht.anyway
  | functionType genericParameterTypes parameterTypes awaits throws returnType =>
    -- the function stands at the part itself, or at a new one below it if its children are taken
    obtain ⟨t, function, hroom, hgrown, hwithin, hlt, hnone⟩ : ∃ t function,
        (if (type.part index).isCollection then (type.push (some index), type.size)
          else (type, index)) =
          (t, function) ∧ type.Grows lookup ((type.part index).isCollection = false) index false t ∧
            type.Within index function ∧ function < t.size ∧
            (t.part function).isCollection = false := by
      split
      · exact ⟨_, _, rfl, Grows.push_blank hi,
          Or.inr (Nat.le_refl _), by simp, isCollection_push ..⟩
      · next hfree =>
          exact ⟨_, _, rfl, Grows.refl type index, Or.inl rfl, hi, Bool.eq_false_iff.mpr hfree⟩
    simp only [hroom]
    have hfunction : t.Grows lookup ((type.part index).isCollection = false) function false
        (t.adjust function fun part =>
          { part with
            predefined := some (.composite .function)
            awaits := some awaits
            throws := some throws }) :=
      Grows.adjust hlt (fun _ => rfl) (fun _ _ => Or.inl) fun _ _ =>
        TypePart.single_of_collects_eq_false (TypePart.isCollection_eq_false_iff.mp hnone).1
    have hlt₀ := Nat.lt_of_lt_of_le hlt hfunction.size_le
    refine Gives.bind (addParts_gives genericParameterTypes (by simp [collect])) fun t₁ h₁ => ?_
    replace h₁ := Grows.of_collect hlt₀ h₁
    have hlt₁ := Nat.lt_of_lt_of_le hlt₀ h₁.size_le
    refine Gives.bind (addParts_gives parameterTypes (by simp [collect])) fun t₂ h₂ => ?_
    replace h₂ := Grows.of_collect hlt₁ h₂
    have hlt₂ := Nat.lt_of_lt_of_le hlt₁ h₂.size_le
    refine (addPart_gives returnType t₂ (some function)).mono fun t₃ h₃ => ?_
    have hbelow :=
      ((hfunction.trans (Or.inl rfl) h₁.anyway).trans (Or.inl rfl) h₂.anyway).trans (Or.inl rfl)
      (h₃.of_push hlt₂).anyway
    have hall := hgrown.trans hwithin hbelow
    simpa [Node.hasFunctionType] using hall
  | modifiedType modifier value =>
    refine (fillFrom_gives value (by simpa using hi)).mono fun t ht => ?_
    refine (grows_marked hi modifier).trans (Or.inl rfl) (ht.imp fun hfree => ?_)
    rw [part_adjust _ _ hi, if_pos rfl, isCollection_marked, hfree]
  | _ => exact Gives.pure (Grows.refl type index)

theorem fillFrom_gives (node : Option Node) {type : TypeTree} {index : Nat}
    (hi : index < type.size) : Gives lookup (fillFrom scope node type index)
      (type.Grows lookup ((type.part index).isCollection = false) index
        (Node.optFunctionType node)) := by
  cases node with
  | none => exact Gives.pure (Grows.refl type index)
  | some node => exact fillPart_gives node hi

theorem addPart_gives (node : Option Node) (type : TypeTree) (parent : Option Nat) :
    Gives lookup (addPart scope node type parent)
      ((type.push parent).Grows lookup True type.size (Node.optFunctionType node)) := by
  cases node with
  | none => exact Gives.pure (Grows.anything (by simp))
  | some node =>
    refine Gives.bind (fillPart_gives node (by simp)) fun t ht => Gives.pure ?_
    exact ht.pushed.filled

theorem addParts_gives (nodes : List Node) {type : TypeTree} {parent : Nat}
    (hi : parent < type.size) :
    Gives lookup (addParts scope nodes type parent)
      (type.Grows lookup True parent (Node.anyFunctionType nodes)) := by
  cases nodes with
  | nil => exact Gives.pure (Grows.refl type parent)
  | cons node rest =>
    refine Gives.bind (fillPart_gives node (by simp)) fun t ht => ?_
    have hgrown := ht.pushed.filled.of_push hi
    refine (addParts_gives rest (Nat.lt_of_lt_of_le hi hgrown.size_le)).mono fun t' ht' => ?_
    exact hgrown.trans (Or.inl rfl) ht'

end

/-! ## Declarations -/

theorem addDeclared_gives (declared : Option Node) (type : TypeTree) (parent : Nat) :
    Gives lookup (addDeclared scope type parent declared)
      ((type.push (some parent)).Grows lookup True type.size (Node.optFunctionType declared)) := by
  cases declared with
  | some node => exact (fillPart_gives node (by simp)).mono fun _ ht => ht.pushed
  | none => exact Gives.pure (Grows.anything (by simp))

theorem addInherited_gives (node : Node) (hi : parent < type.size) :
    Gives lookup (addInherited scope type parent node)
      (type.Grows lookup True parent node.hasFunctionType) :=
  (fillPart_gives node (by simp)).mono fun _ ht => ht.pushed.of_push hi

end Run

/-- The constraint of a generic parameter; other nodes have none. -/
def Node.constraint? (node : Node) : Option Node :=
  match node.form with
  | .genericParameter _ constraint => constraint
  | _ => none

/-- The type that a parameter is declared with; other nodes have none. -/
def Node.declared? (node : Node) : Option Node :=
  match node.form with
  | .parameter _ _ declared _ => declared
  | _ => none

namespace Run

open TypeTree

variable {scope : Handle} {lookup : Lookup} {type : TypeTree} {index parent : Nat}

/-- A part that was just added takes names and a default. -/
theorem grows_name {b : Bool} {t : TypeTree}
    (h : (type.push (some parent)).Grows lookup True type.size b t)
    (hrole : ∀ p, (change p).role = p.role) (hreference : ∀ p, (change p).reference = p.reference)
    (hcollects : ∀ p a, (change p).collects a = p.collects a)
    (hpredefined : ∀ p, (change p).predefined = p.predefined) :
    (type.push (some parent)).Grows lookup True type.size b (t.adjust type.size change) := by
  have hlt : type.size < t.size := Nat.lt_of_lt_of_le (by simp) h.size_le
  refine Bool.or_false b ▸ h.trans (Or.inl rfl) (Grows.adjust_same hlt hrole ?_ hcollects fun p =>
    .inl (hpredefined p))
  exact fun p x hx => Or.inl (hreference p ▸ hx)

/-- A generic parameter grows the list it is added to. -/
theorem addGenericParameter_gives (node : Node) (hi : parent < type.size) :
    Gives lookup (addGenericParameter scope type parent node)
      (type.Grows lookup True parent (Node.optFunctionType node.constraint?)) := by
  obtain ⟨range, form⟩ := node
  cases form with
  | genericParameter identifier constraint =>
    refine Gives.bind (addDeclared_gives constraint type parent) fun t ht => Gives.pure ?_
    exact Grows.of_push hi
      (grows_name ht (fun _ => rfl) (fun _ => rfl) (fun _ _ => rfl) fun _ => rfl)
  | _ => exact Gives.pure (Grows.refl type parent)

/-- So does a parameter. -/
theorem addParameter_gives (node : Node) (hi : parent < type.size) :
    Gives lookup (addParameter scope type parent node)
      (type.Grows lookup True parent (Node.optFunctionType node.declared?)) := by
  obtain ⟨range, form⟩ := node
  cases form with
  | parameter label identifier declared value =>
    refine Gives.bind (addDeclared_gives declared type parent) fun t ht => Gives.pure ?_
    exact Grows.of_push hi
      (grows_name ht (fun _ => rfl) (fun _ => rfl) (fun _ _ => rfl) fun _ => rfl)
  | _ => exact Gives.pure (Grows.refl type parent)

/-- Parts are added below one part, one after the other. -/
theorem foldlM_gives {add : TypeTree → Nat → Node → Run TypeTree} {functional : Node → Bool}
    (hadd : ∀ (node : Node) {t : TypeTree}, parent < t.size →
      Gives lookup (add t parent node) (t.Grows lookup True parent (functional node)))
    (nodes : List Node) (hi : parent < type.size) :
    Gives lookup (nodes.foldlM (fun t node => add t parent node) type)
      (type.Grows lookup True parent (nodes.any functional)) := by
  induction nodes generalizing type with
  | nil => exact Gives.pure (Grows.refl type parent)
  | cons node rest ih =>
    rw [List.foldlM_cons]
    refine Gives.bind (hadd node hi) fun t ht => ?_
    refine (ih (Nat.lt_of_lt_of_le hi ht.size_le)).mono fun t' ht' => ?_
    exact ht.trans (Or.inl rfl) ht'

theorem typeOf_gives (node : Option Node) :
    Gives lookup (typeOf scope node) (empty.Continues lookup) := by
  have hpush : empty.Continues lookup (empty.push none) :=
    ⟨fun h => h.push (fun _ h => by cases h) fun _ => rfl, fun _ hx =>
      Or.inl (mem_references_push hx)⟩
  exact (addPart_gives node empty none).mono fun _ h => hpush.trans h.continues

theorem functionSignature_gives (parts : SignatureParts Node) :
    Gives lookup (functionSignature scope parts) (empty.Continues lookup) := by
  have hroot : empty.Continues lookup (TypeTree.ofPart
      { predefined := some (.composite .function), inits := some parts.inits,
        deinits := some parts.deinits,
        awaits := some parts.awaits, throws := some parts.throws }) :=
    ⟨fun _ => sound_ofPart rfl (TypePart.single_of_collects_eq_false fun a => by cases a <;> rfl),
      fun _ h => by cases h⟩
  unfold functionSignature
  dsimp only
  refine Gives.bind (foldlM_gives (fun node => addGenericParameter_gives node) _ Nat.one_lt_two)
    fun t₁ h₁ => ?_
  replace h₁ := Grows.of_collect Nat.zero_lt_one h₁
  have hi₁ := Nat.lt_of_lt_of_le Nat.zero_lt_one h₁.size_le
  refine (foldlM_gives (fun node => addParameter_gives node) _ (by simp [collect])).bind
    fun t₂ h₂ => ?_
  replace h₂ := Grows.of_collect hi₁ h₂
  have hi₂ := Nat.lt_of_lt_of_le hi₁ h₂.size_le
  refine (addPart_gives _ t₂ (some 0)).mono fun t₃ h₃ => ?_
  exact hroot.trans (((h₁.trans (Or.inl rfl) h₂).trans (Or.inl rfl) (h₃.of_push hi₂)).continues)

/-- A composite may inherit and be generic, whatever its own type is. -/
theorem declaredType_gives (parts : CompositeParts Node) :
    Gives lookup (declaredType scope type parts) (type.Continues lookup) := by
  have hinherited : ∀ t : TypeTree, type.Continues lookup t → Gives lookup
      (if parts.inheritedTypes.isEmpty then pure t
        else parts.inheritedTypes.foldlM (fun t' node => addInherited scope t'
          (t.collect none (some 0) .inheritedTypes).2 node)
          (t.collect none (some 0) .inheritedTypes).1)
      (type.Continues lookup) := by
    intro t ht
    split
    · exact Gives.pure ht
    · obtain ⟨hroot, hlt⟩ := continues_collect t .inheritedTypes
      refine (foldlM_gives (fun node => addInherited_gives node) _ hlt).mono fun _ h => ?_
      exact (ht.trans hroot).trans h.continues
  unfold declaredType
  dsimp only
  split
  · exact Gives.bind (Gives.pure (Continues.refl type)) hinherited
  · obtain ⟨hroot, hlt⟩ := continues_collect type .genericParameters
    refine Gives.bind (foldlM_gives (fun node => addGenericParameter_gives node) _ hlt)
      fun t ht => ?_
    exact hinherited t (hroot.trans ht.continues)

end Run

end CompositeGraph
