/-
  SHAPES: what the types look like that programs build.

  A type grows part by part while a program's type is read: parts are added below parts that are
  there, and a part that was just added is marked, filled or made to collect what stands below it.
  Nothing prevents a flat list of parts from running in circles or a part from collecting two sorts
  of things at once; but no type is built that way.  A part that collects already is not asked to
  collect again: a new one is added below it.

    1. PARTS.     `TypePart.Single`: a part collects one sort of things at most,
                  and a function none.
    2. TYPES.     `TypeTree.Sound`: a tree of such parts.  Adding and changing parts; subtrees.
    3. PROVIDED.  Types that no program writes: of plain values, objects,
                  observers and native functions.
-/
import CompositeGraph.Interpreter
import CompositeGraph.Proofs.Subtypes

namespace CompositeGraph

/-! ## Parts -/

namespace TypePart

variable {p q : TypePart} {a b : Collection}

/-- Whether the part collects things of a sort. -/
def collects (part : TypePart) : Collection → Bool
  | .union => part.union
  | .intersection => part.intersection
  | .array => part.array
  | .dictionary => part.dictionary
  | .genericArguments => part.genericArguments
  | .genericParameters => part.genericParameters
  | .parameters => part.parameters
  | .inheritedTypes => part.inheritedTypes

/-- The part collects things of one sort at most, and none if it is a function. -/
structure Single (part : TypePart) : Prop where
  one : ∀ a b, part.collects a = true → part.collects b = true → a = b
  function : part.predefined = some (.composite .function) → ∀ a, part.collects a = false

theorem collects_withCollection (p : TypePart) (a b : Collection) :
    (p.withCollection a).collects b = (decide (b = a) || p.collects b) := by
  cases a <;> cases b <;> rfl

@[simp] theorem parent_withCollection (p : TypePart) (a : Collection) :
    (p.withCollection a).parent = p.parent := by
  cases a <;> rfl

@[simp] theorem predefined_withCollection (p : TypePart) (a : Collection) :
    (p.withCollection a).predefined = p.predefined := by
  cases a <;> rfl

theorem isCollection_eq_false_iff :
    p.isCollection = false ↔ (∀ a, p.collects a = false) ∧
      p.predefined ≠ some (.composite .function) := by
  have hnone : p.collection? = none ↔ ∀ a, p.collects a = false := by
    constructor
    · intro h a
      unfold collection? at h
      cases a <;> simp only [collects] <;> grind
    · intro h
      have h₁ := h .union
      have h₂ := h .intersection
      have h₃ := h .array
      have h₄ := h .dictionary
      have h₅ := h .genericArguments
      have h₆ := h .genericParameters
      have h₇ := h .parameters
      have h₈ := h .inheritedTypes
      simp only [collects] at h₁ h₂ h₃ h₄ h₅ h₆ h₇ h₈
      simp [collection?, h₁, h₂, h₃, h₄, h₅, h₆, h₇, h₈]
  rw [isCollection, Bool.or_eq_false_iff, Option.isSome_eq_false_iff,
    Option.isNone_iff_eq_none, hnone]
  simp

/-- What a part collects is all there is to it. -/
theorem Single.congr (h : p.Single) (hcollects : ∀ a, q.collects a = p.collects a)
    (hpredefined : q.predefined = p.predefined ∨ q.predefined ≠ some (.composite .function)) :
      q.Single where
  one a b ha hb := h.one a b (hcollects a ▸ ha) (hcollects b ▸ hb)
  function hq a := by
    rcases hpredefined with heq | hne
    · rw [hcollects]
      exact h.function (heq ▸ hq) a
    · exact absurd hq hne

theorem single_of_collects_eq_false (h : ∀ a, p.collects a = false) : p.Single where
  one a _ ha _ := by
    rw [h a] at ha
    cases ha
  function _ := h

theorem single_withCollection (h : p.isCollection = false) (a : Collection) :
    (p.withCollection a).Single := by
  obtain ⟨hnone, hfunction⟩ := isCollection_eq_false_iff.mp h
  have hself : ∀ b, (p.withCollection a).collects b = true → b = a := by
    intro b hb
    simpa [collects_withCollection, hnone b] using hb
  refine ⟨fun b c hb hc => (hself b hb).trans (hself c hc).symm, fun hp => ?_⟩
  rw [predefined_withCollection] at hp
  exact absurd hp hfunction

instance (part : TypePart) : Decidable part.Single :=
  let all : List Collection :=
    [.union, .intersection, .array, .dictionary, .genericArguments, .genericParameters,
    .parameters, .inheritedTypes]
  have hall : ∀ a, a ∈ all := fun a => by cases a <;> decide
  decidable_of_iff
    ((∀ a ∈ all, ∀ b ∈ all, part.collects a = true → part.collects b = true → a = b) ∧
      (part.predefined = some (.composite .function) → ∀ a ∈ all, part.collects a = false))
    ⟨fun h => ⟨fun a b => h.1 a (hall a) b (hall b), fun hp a => h.2 hp a (hall a)⟩,
      fun h => ⟨fun a _ b _ => h.one a b, fun hp a _ => h.function hp a⟩⟩

end TypePart

/-! ## Types -/

namespace TypeTree

/-- A tree of parts, each of which collects things of one sort at most. -/
structure Sound (type : TypeTree) : Prop where
  wellFormed : type.WellFormed
  single : ∀ i, (type.part i).Single

variable {type : TypeTree} {i parent : Nat}

theorem single_blank (parent : Option Nat) : ({ parent := parent } : TypePart).Single :=
  TypePart.single_of_collects_eq_false fun a => by cases a <;> rfl

instance (type : TypeTree) : Decidable type.Sound :=
  decidable_of_iff (type.WellFormed ∧ ∀ i < type.size, (type.part i).Single)
    ⟨fun h => ⟨h.1, fun i => by
        rcases Nat.lt_or_ge i type.size with hlt | hle
        · exact h.2 i hlt
        · rw [part_of_size_le hle]
          exact single_blank none⟩,
      fun h => ⟨h.wellFormed, fun i _ => h.single i⟩⟩

theorem adjust_of_size_le (h : type.size ≤ i) (change : TypePart → TypePart) :
    type.adjust i change = type := by
  rw [adjust, List.modify_eq_self h]

theorem sound_empty : empty.Sound := by decide

theorem sound_ofPart {part : TypePart} (hparent : part.parent = none) (hsingle : part.Single) :
    (ofPart part).Sound where
  wellFormed := ⟨hparent, fun i hi hpos => absurd hi (by simp [size, ofPart]; omega)⟩
  single i := by
    cases i with
    | zero => exact hsingle
    | succ i =>
      rw [part_of_size_le (by simp [size, ofPart])]
      exact single_blank none

namespace Sound

/-- A part is added below one that is there, or as the root. -/
theorem push (h : type.Sound) {parent : Option Nat} (hparent : ∀ j ∈ parent, j < type.size)
    (hroot : parent = none → type.size = 0) : (type.push parent).Sound := by
  have hpart := part_push type parent
  refine ⟨⟨?_, fun i hi hpos => ?_⟩, fun i => ?_⟩
  · rw [hpart]
    split
    · cases parent with
      | none => rfl
      | some j => exact absurd (hparent j rfl) (by omega)
    · exact h.wellFormed.root
  · rw [size_push] at hi
    rw [hpart]
    split
    · cases parent with
      | none => exact absurd (hroot rfl) (by omega)
      | some j => exact ⟨j, by have := hparent j rfl; omega, rfl⟩
    · exact h.wellFormed.earlier i (by omega) hpos
  · rw [hpart]
    split
    · exact single_blank parent
    · exact h.single i

theorem push_below (h : type.Sound) (hi : i < type.size) : (type.push (some i)).Sound :=
  h.push (by rintro _ ⟨⟩; exact hi) (by simp)

/-- A part changes, but not where it stands. -/
theorem adjust (h : type.Sound) (i : Nat) {change : TypePart → TypePart}
    (hparent : ∀ p, (change p).parent = p.parent)
    (hsingle : (type.part i).Single → (change (type.part i)).Single) :
    (type.adjust i change).Sound := by
  rcases Nat.lt_or_ge i type.size with hi | hi
  · have hpart := part_adjust type change hi
    have hkept : ∀ j, ((type.adjust i change).part j).parent = (type.part j).parent := by
      intro j
      rw [hpart]
      split
      · exact hparent _
      · rfl
    refine ⟨⟨(hkept 0).trans h.wellFormed.root, fun j hj hpos => ?_⟩, fun j => ?_⟩
    · rw [hkept]
      exact h.wellFormed.earlier j (by rwa [size_adjust] at hj) hpos
    · rw [hpart]
      split
      · rename_i heq
        subst heq
        exact hsingle (h.single i)
      · exact h.single j
  · rwa [adjust_of_size_le hi]

/-- What a part collects is left as it was. -/
theorem adjust_same (h : type.Sound) (i : Nat) {change : TypePart → TypePart}
    (hparent : ∀ p, (change p).parent = p.parent)
    (hcollects : ∀ p a, (change p).collects a = p.collects a)
    (hpredefined : ∀ p, (change p).predefined = p.predefined ∨
      (change p).predefined ≠ some (.composite .function)) :
    (type.adjust i change).Sound :=
  h.adjust i hparent fun hsingle => hsingle.congr (hcollects _) (hpredefined _)

/-- A part that was just added below another is made to collect. -/
theorem collect_below (h : type.Sound) (hi : i < type.size) (collection : Collection) :
    (type.collect (some i) none collection).1.Sound ∧
      (type.collect (some i) none collection).2 <
        (type.collect (some i) none collection).1.size := by
  refine ⟨(h.push_below hi).adjust type.size
    (fun p => p.parent_withCollection collection) fun _ => ?_, ?_⟩
  · rw [part_push, if_pos rfl]
    exact TypePart.single_withCollection rfl collection
  · simp [collect]

/-- A part is made to collect, or one below it if it collects already. -/
theorem collect_at (h : type.Sound) (hi : i < type.size) (collection : Collection) :
    (type.collect none (some i) collection).1.Sound ∧
      (type.collect none (some i) collection).2 <
        (type.collect none (some i) collection).1.size := by
  have hpart : type.part? i = some (type.part i) := by
    rw [part, part?, List.getElem?_eq_getElem hi]
    rfl
  simp only [collect, hpart]
  split
  · exact h.collect_below hi collection
  · rename_i hfree
    refine ⟨h.adjust i (fun p => p.parent_withCollection collection) fun _ => ?_, by simpa using hi⟩
    exact TypePart.single_withCollection (Bool.eq_false_iff.mpr hfree) collection

/-- The root is made to collect, if there is one. -/
theorem collect_root (h : type.Sound) (collection : Collection) :
    (type.collect none (some 0) collection).1.Sound ∧
      (type.collect none (some 0) collection).2 <
        (type.collect none (some 0) collection).1.size := by
  rcases Nat.eq_zero_or_pos type.size with hsize | hpos
  · have hempty : type = empty := congrArg TypeTree.mk (List.eq_nil_of_length_eq_zero hsize)
    subst hempty
    cases collection <;> decide
  · exact h.collect_at hpos collection

/-- Every part of a subtree is a copy of a part of the type, apart from where it stands. -/
theorem subtype (h : type.Sound) (i : Nat) : (type.subtype i).Sound := by
  refine ⟨h.wellFormed.subtype i, fun k => ?_⟩
  rcases Nat.lt_or_ge i type.size with hi | hi
  · have hcopy := h.wellFormed.isCopy_subtype hi
    rcases Nat.lt_or_ge k (type.subtype i).size with hk | hk
    · have hlength := congrArg List.length hcopy.parts
      rw [List.length_map, List.length_map] at hlength
      have hsame := hcopy.detached_part (List.getElem?_eq_getElem (Nat.lt_of_lt_of_eq hk hlength))
      have hcollects := fun a => congrArg (TypePart.collects · a) hsame
      have hpredefined := congrArg TypePart.predefined hsame
      exact (h.single _).congr hcollects (.inl hpredefined)
    · rw [part_of_size_le hk]
      exact single_blank none
  · rw [TypeTree.subtype, subtype?, if_neg (Nat.not_lt.mpr hi)]
    exact sound_empty.single k

end Sound

end TypeTree

/-! ## Provided types -/

namespace TypeTree

theorem sound_ofPredefined (predefined : Predefined) : (ofPredefined predefined).Sound :=
  sound_ofPart rfl (TypePart.single_of_collects_eq_false fun a => by cases a <;> rfl)

theorem sound_compositeSelf (predefined : Predefined) : (compositeSelf predefined).Sound :=
  sound_ofPart rfl (TypePart.single_of_collects_eq_false fun a => by cases a <;> rfl)

theorem sound_anything : anything.Sound := by decide

theorem sound_objectType (classHandle : Handle) : (Run.objectType classHandle).Sound := by
  have hcollected := (sound_ofPredefined (.composite .object)).collect_root .inheritedTypes
  exact (hcollected.1.push_below hcollected.2).adjust_same _ (fun _ => rfl)
    (fun _ _ => rfl) fun _ => .inl rfl

theorem sound_observerSignature (parameter : String) : (Run.observerSignature parameter).Sound := by
  have hcollected :=
    (sound_ofPredefined (.composite .function)).collect_below (i := 0) Nat.zero_lt_one .parameters
  refine (hcollected.1.push_below hcollected.2).adjust_same _ (fun _ => rfl)
    (fun _ _ => rfl) fun _ => .inr ?_
  exact fun h => by cases h

theorem sound_signature (native : Native) : native.signature.Sound := by cases native <;> decide

end TypeTree

end CompositeGraph
