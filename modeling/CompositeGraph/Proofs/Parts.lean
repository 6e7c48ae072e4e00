/-
  PARTS of a type.

  A type is a flat list of parts, each with the index of the part it stands below.  It is changed by
  adding a part at the end and by changing a part in its place, and read from the
  first part that has a flag.

    1. PARTS.  What a part of a changed tree is, and the readers in terms of it.
-/
import Mathlib.Data.List.Sort
import CompositeGraph.TypeTree.Basic

namespace CompositeGraph

/-! ## Parts -/

namespace TypeTree

variable {type : TypeTree} {i j : Nat}

theorem part_eq_getD (type : TypeTree) (i : Nat) : type.part i = type.parts[i]?.getD {} := rfl

@[simp] theorem size_push (type : TypeTree) (parent : Option Nat) :
    (type.push parent).size = type.size + 1 := by
  simp [size, push]

@[simp] theorem size_adjust (type : TypeTree) (i : Nat) (change : TypePart → TypePart) :
    (type.adjust i change).size = type.size := by
  simp [size, adjust]

/-- There is nothing to read behind the last part. -/
theorem part_of_size_le (h : type.size ≤ i) : type.part i = {} := by
  rw [part_eq_getD, List.getElem?_eq_none h]
  rfl

theorem lt_size_of_part_ne (h : type.part i ≠ {}) : i < type.size := Nat.lt_of_not_le fun hle =>
    h (part_of_size_le hle)

theorem lt_size_of_parameters (h : (type.part i).parameters = true) : i < type.size :=
  lt_size_of_part_ne fun hblank => by rw [hblank] at h; cases h

theorem lt_size_of_parent (h : (type.part i).parent = some j) : i < type.size :=
  lt_size_of_part_ne fun hblank => by rw [hblank] at h; cases h

theorem lt_size_of_predefined {predefined : Predefined}
    (h : (type.part i).predefined = some predefined) :
    i < type.size := lt_size_of_part_ne fun hblank => by rw [hblank] at h; cases h

theorem part_push (type : TypeTree) (parent : Option Nat) (i : Nat) :
    (type.push parent).part i = if i = type.size then { parent := parent } else type.part i := by
  rcases Nat.lt_trichotomy i type.size with h | h | h
  · rw [if_neg (Nat.ne_of_lt h), part_eq_getD, push, List.getElem?_append_left h, part_eq_getD]
  · subst h
    rw [if_pos rfl, part_eq_getD, push, size, List.getElem?_concat_length]
    rfl
  · rw [if_neg (Nat.ne_of_gt h), part_of_size_le (Nat.le_of_lt h)]
    exact part_of_size_le (by rw [size_push]; omega)

theorem part_adjust (type : TypeTree) (change : TypePart → TypePart) (h : i < type.size) (j : Nat) :
    (type.adjust i change).part j = if i = j then change (type.part j) else type.part j := by
  rw [part_eq_getD, adjust, List.getElem?_modify, part_eq_getD]
  split
  · subst j
    rw [List.getElem?_eq_getElem h]
    rfl
  · simp

theorem children_eq (type : TypeTree) (i : Nat) :
    type.children i = (List.range type.size).filter fun j => (type.part j).parent == some i := by
  have hrange : List.range type.size = type.parts.zipIdx.map (·.2) := by
    rw [List.zipIdx_map_snd, List.range_eq_range']
    rfl
  rw [children, hrange, List.filter_map]
  refine congrArg _ (List.filter_congr ?_)
  rintro ⟨part, j⟩ h
  have hj : type.parts[j]? = some part := List.mem_zipIdx_iff_getElem?.mp h
  show (part.parent == some i) = ((type.part j).parent == some i)
  rw [part_eq_getD, hj]
  rfl

theorem mem_children : j ∈ type.children i ↔ j < type.size ∧ (type.part j).parent = some i := by
  rw [children_eq, List.mem_filter, List.mem_range, beq_iff_eq]

/-- The children of the first part with a flag. -/
theorem flagged_eq_children {flag : TypePart → Bool} (hi : i < type.size)
    (hflag : flag (type.part i) = true)
    (hfirst : ∀ j < i, flag (type.part j) = false) : type.flagged flag = type.children i := by
  have hpart : ∀ j (hj : j < type.parts.length), type.parts[j] = type.part j := by
    intro j hj
    rw [part_eq_getD, List.getElem?_eq_getElem hj]
    rfl
  have hfind : type.parts.findIdx? flag = some i := by
    rw [List.findIdx?_eq_some_iff_getElem]
    refine ⟨hi, (hpart i hi).symm ▸ hflag, ?_⟩
    intro j hj
    rw [hpart j (Nat.lt_trans hj hi), hfirst j hj]
    exact Bool.false_ne_true
  rw [flagged, hfind]

theorem exists_flagged_eq (flag : TypePart → Bool) (hi : i < type.size)
    (hflag : flag (type.part i) = true) : ∃ first ≤ i, type.flagged flag = type.children first := by
  have hex : ∃ k, flag (type.part k) = true := ⟨i, hflag⟩
  have hle : Nat.find hex ≤ i := Nat.find_min' hex hflag
  refine ⟨Nat.find hex, hle, ?_⟩
  refine flagged_eq_children (Nat.lt_of_le_of_lt hle hi) (Nat.find_spec hex) ?_
  intro j hj
  exact Bool.eq_false_iff.mpr (Nat.find_min hex hj)

/-- The return type is the first child of the root that collects no parameters of either sort. -/
theorem return?_eq_some (hi : i < type.size)
    (hrole : (type.part i).parent = some 0 ∧ (type.part i).parameters = false ∧
      (type.part i).genericParameters = false)
    (hfirst : ∀ j < i, (type.part j).parent = some 0 →
      (type.part j).parameters = true ∨ (type.part j).genericParameters = true) :
        type.return? = some i := by
  rw [return?, children_eq, List.find?_filter, List.find?_range_eq_some]
  obtain ⟨hparent, hparameters, hgeneric⟩ := hrole
  refine ⟨by simp [hparent, hparameters, hgeneric], List.mem_range.mpr hi, ?_⟩
  intro j hj
  by_cases h : (type.part j).parent = some 0
  · rcases hfirst j hj h with h | h <;> simp [h]
  · simp [h]

/-- What a type refers to is what its parts do. -/
theorem mem_references {type : TypeTree} {h : Handle} :
    h ∈ type.references ↔ ∃ part ∈ type.parts, part.reference = some h := by
  simp [references]

theorem mem_references_of_part {type : TypeTree} {index : Nat} {h : Handle}
    (hh : (type.part index).reference = some h) : h ∈ type.references := by
  unfold part part? at hh
  cases hp : type.parts[index]? with
  | none => rw [hp] at hh; exact absurd hh (by simp)
  | some p =>
    rw [hp] at hh
    exact mem_references.mpr ⟨p, List.mem_of_getElem? hp, hh⟩

end TypeTree

end CompositeGraph
