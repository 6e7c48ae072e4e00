/-
  EQUALITY, and what is equal to itself.

  Floats are compared by their own rule, under which a NaN differs from itself; so does every value
  that holds one, and an entry under such a key is never found again.  A NaN may stand deep inside:
  in an entry of a dictionary, or in a literal of an expression that a type holds for a parameter.
  All other values are equal to themselves.  Equality is symmetric and transitive throughout.

    1. FLOATS.        Every float but a NaN; the two zeros are equal, the two infinities are not.
    2. DOCUMENTS.     Leaf by leaf.
    3. SYNTAX TREES.  Nodes are equal as the documents of all that is in them.
    4. TYPES.         Part by part, with the nodes that parts hold.
    5. VALUES.        Every value without a NaN.
    6. DICTIONARIES.  What is put under a key is found under it.
-/
import CompositeGraph.Proofs.SyntaxTrees
import CompositeGraph.Value.Basic

namespace CompositeGraph

open Float.Model (UnpackedFloat)

/-! ## Floats -/

/-- Floats that are equal: one float, or two zeros. -/
inductive AlikeFloats : UnpackedFloat → UnpackedFloat → Prop
  | infinity (s : UnpackedFloat.Sign) : AlikeFloats (.infinity s) (.infinity s)
  | zero (s t : UnpackedFloat.Sign) : AlikeFloats (.zero s) (.zero t)
  | finite (s : UnpackedFloat.Sign) (m : Nat) (e : Int) (h : 0 < m) :
    AlikeFloats (.finite s m e h) (.finite s m e h)

namespace AlikeFloats

/-- Digits that compare equal, exponent first, are the same digits. -/
theorem of_digits {s : UnpackedFloat.Sign} {m m' : Nat} {e e' : Int} {hm : 0 < m} {hm' : 0 < m'}
    (h : (compare e e').then (compare m m') = .eq) :
      AlikeFloats (.finite s m e hm) (.finite s m' e' hm') := by
  obtain ⟨he, hm⟩ := Ordering.then_eq_eq.mp h
  obtain rfl : e = e' := Std.LawfulEqOrd.eq_of_compare he
  obtain rfl : m = m' := Std.LawfulEqOrd.eq_of_compare hm
  exact .finite s m e _

/-- Only a float with itself and two zeros compare equal; each other case contradicts that. -/
theorem of_compare {a b : UnpackedFloat} (h : a.compare b = some .eq) : AlikeFloats a b := by
  cases a with
  | notANumber => cases h
  | infinity s =>
    cases b with
    | infinity t =>
      obtain rfl : s = t := by cases s <;> cases t <;> first | rfl | cases h
      exact .infinity s
    | _ => cases s <;> cases h
  | zero s =>
    cases b with
    | zero t => exact .zero s t
    | notANumber => cases h
    | infinity t | finite t => cases t <;> cases h
  | finite s m e hm =>
    cases b with
    | notANumber => cases s <;> cases h
    | infinity t => cases s <;> cases t <;> cases h
    | zero t => cases s <;> cases h
    | finite t m' e' hm' =>
      cases s with
      | positive =>
        cases t with
        | positive => exact of_digits (Option.some.inj h)
        | negative => cases h
      | negative =>
        cases t with
        | positive => cases h
        | negative => exact of_digits (Ordering.swap_inj.mp (Option.some.inj h))

theorem compare_eq {a b : UnpackedFloat} (h : AlikeFloats a b) : a.compare b = some .eq := by
  cases h with
  | infinity s => cases s <;> rfl
  | zero s t => rfl
  | finite s m e hm =>
    have hdigits : (compare e e).then (compare m m) = .eq :=
      Ordering.then_eq_eq.mpr ⟨Std.ReflCmp.compare_self, Std.ReflCmp.compare_self⟩
    cases s with
    | positive => exact congrArg some hdigits
    | negative => exact congrArg some (Ordering.swap_inj.mpr hdigits)

/-- Being alike is symmetric, case by case. -/
theorem symm {a b : UnpackedFloat} (h : AlikeFloats a b) : AlikeFloats b a := by
  cases h with
  | infinity s => exact .infinity s
  | zero s t => exact .zero t s
  | finite s m e hm => exact .finite s m e hm

/-- Two zeros may differ in sign; all else that is alike is one float. -/
theorem trans {a b c : UnpackedFloat} (h : AlikeFloats a b) (h' : AlikeFloats b c) :
    AlikeFloats a c := by
  cases h with
  | zero s t =>
    cases h' with
    | zero _ t' => exact .zero s t'
  | _ => exact h'

/-- Only what is not a number is unlike itself. -/
theorem self {a : UnpackedFloat} (h : a.isNaN = false) : AlikeFloats a a := by
  cases a with
  | notANumber => cases h
  | infinity s => exact .infinity s
  | zero s => exact .zero s s
  | finite s m e hm => exact .finite s m e hm

end AlikeFloats

/-- Floats are equal if their unpacked forms are alike, which is where `-0` equals `0`. -/
theorem float_beq_iff {x y : Float} :
    (x == y) = true ↔ AlikeFloats x.toModel.unpack y.toModel.unpack := by
  change (x.toModel.unpack.compare y.toModel.unpack == some .eq) = true ↔ _
  rw [beq_iff_eq]
  exact ⟨.of_compare, AlikeFloats.compare_eq⟩

/-- Every float but a NaN is equal to itself. -/
theorem float_beq_self {x : Float} (h : x.isNaN = false) : (x == x) = true :=
  float_beq_iff.mpr (.self h)

instance partialEquivBEqFloat : PartialEquivBEq Float where
  symm h := float_beq_iff.mpr (float_beq_iff.mp h).symm
  trans h h' := float_beq_iff.mpr ((float_beq_iff.mp h).trans (float_beq_iff.mp h'))

/-! ## Documents -/

namespace Json

mutual

/-- A document in which no float is a NaN is the same as itself. -/
theorem same_self : (json : Json) → (∀ x ∈ json.floats, x.isNaN = false) → json.same json = true
  | .null, _ => rfl
  | .bool value, _ => by simp [same]
  | .int value, _ => by simp [same]
  | .float value, h => float_beq_self (h value (by simp [floats, leaves, float?]))
  | .text value, _ => by simp [same]
  | .list items, h => sameList_self items h
  | .object fields, h => sameFields_self fields h

/-- So are lists of such documents. -/
theorem sameList_self : (items : List Json) →
    (∀ x ∈ (leavesItems items).filterMap float?, x.isNaN = false) → sameList items items = true
  | [], _ => rfl
  | item :: rest, h => by
    rw [leavesItems, List.filterMap_append, List.forall_mem_append] at h
    rw [sameList, same_self item h.1, sameList_self rest h.2]
    rfl

/-- And the fields of objects, which have the same names. -/
theorem sameFields_self : (fields : List (String × Json)) →
    (∀ x ∈ (leavesFields fields).filterMap float?, x.isNaN = false) →
      sameFields fields fields = true
  | [], _ => rfl
  | (name, value) :: rest, h => by
    rw [leavesFields, List.filterMap_append, List.forall_mem_append] at h
    rw [sameFields, same_self value h.1, sameFields_self rest h.2, beq_self_eq_true]
    rfl

end

mutual

/-- Documents are compared from the root down.  Symmetry is by recursion, with a theorem each for
    documents, lists and fields. -/
theorem same_symm : (a : Json) → {b : Json} → a.same b = true → b.same a = true
  | .null, b, h => by cases b with | null => rfl | _ => cases h
  | .bool x, b, h => by cases b with | bool y => exact BEq.symm h | _ => cases h
  | .int x, b, h => by cases b with | int y => exact BEq.symm h | _ => cases h
  | .float x, b, h => by cases b with | float y => exact BEq.symm h | _ => cases h
  | .text x, b, h => by cases b with | text y => exact BEq.symm h | _ => cases h
  | .list x, b, h => by cases b with | list y => exact sameList_symm x h | _ => cases h
  | .object x, b, h => by cases b with | object y => exact sameFields_symm x h | _ => cases h

/-- Items are compared in order. -/
theorem sameList_symm : (as : List Json) → {bs : List Json} → sameList as bs = true →
    sameList bs as = true
  | [], bs, h => by cases bs with | nil => rfl | cons => cases h
  | a :: as, bs, h => by
    cases bs with
    | nil => cases h
    | cons b bs =>
      rw [sameList, Bool.and_eq_true] at h ⊢
      exact ⟨same_symm a h.1, sameList_symm as h.2⟩

/-- Fields are compared in order, name and value. -/
theorem sameFields_symm : (as : List (String × Json)) → {bs : List (String × Json)} →
    sameFields as bs = true → sameFields bs as = true
  | [], bs, h => by cases bs with | nil => rfl | cons => cases h
  | (m, a) :: as, bs, h => by
    cases bs with
    | nil => cases h
    | cons b bs =>
      obtain ⟨n, b⟩ := b
      rw [sameFields, Bool.and_eq_true, Bool.and_eq_true] at h ⊢
      exact ⟨⟨BEq.symm h.1.1, same_symm a h.1.2⟩, sameFields_symm as h.2⟩

end

mutual

/-- Transitivity goes the same way. -/
theorem same_trans : (a : Json) → {b c : Json} → a.same b = true → b.same c = true → a.same c = true
  | .null, b, c, h, h' => by cases b with | null => exact h' | _ => cases h
  | .bool x, b, c, h, h' => by
    cases b with | bool y =>
      (cases c with | bool z => exact BEq.trans h h' | _ => cases h') | _ => cases h
  | .int x, b, c, h, h' => by
    cases b with | int y =>
      (cases c with | int z => exact BEq.trans h h' | _ => cases h') | _ => cases h
  | .float x, b, c, h, h' => by
    cases b with | float y =>
      (cases c with | float z => exact BEq.trans h h' | _ => cases h') | _ => cases h
  | .text x, b, c, h, h' => by
    cases b with | text y =>
      (cases c with | text z => exact BEq.trans h h' | _ => cases h') | _ => cases h
  | .list x, b, c, h, h' => by
    cases b with | list y =>
      (cases c with | list z => exact sameList_trans x h h' | _ => cases h') | _ => cases h
  | .object x, b, c, h, h' => by
    cases b with | object y =>
      (cases c with | object z => exact sameFields_trans x h h' | _ => cases h') | _ => cases h

theorem sameList_trans : (as : List Json) → {bs cs : List Json} → sameList as bs = true →
    sameList bs cs = true → sameList as cs = true
  | [], bs, cs, h, h' => by cases bs with | nil => exact h' | cons => cases h
  | a :: as, bs, cs, h, h' => by
    cases bs with
    | nil => cases h
    | cons b bs =>
      cases cs with
      | nil => cases h'
      | cons c cs =>
        rw [sameList, Bool.and_eq_true] at h h' ⊢
        exact ⟨same_trans a h.1 h'.1, sameList_trans as h.2 h'.2⟩

theorem sameFields_trans : (as : List (String × Json)) → {bs cs : List (String × Json)} →
    sameFields as bs = true → sameFields bs cs = true → sameFields as cs = true
  | [], bs, cs, h, h' => by cases bs with | nil => exact h' | cons => cases h
  | (m, a) :: as, bs, cs, h, h' => by
    cases bs with
    | nil => cases h
    | cons b bs =>
      obtain ⟨n, b⟩ := b
      cases cs with
      | nil => cases h'
      | cons c cs =>
        obtain ⟨k, c⟩ := c
        rw [sameFields, Bool.and_eq_true, Bool.and_eq_true] at h h' ⊢
        exact ⟨⟨BEq.trans h.1.1 h'.1.1, same_trans a h.1.2 h'.1.2⟩, sameFields_trans as h.2 h'.2⟩

end

instance : PartialEquivBEq Json where
  symm h := same_symm _ h
  trans h h' := same_trans _ h h'

end Json

/-! ## Syntax trees -/

namespace Node

/-- The floats that stand in literals of a node or of nodes below it. -/
def floats (node : Node) : List Float := (node.document Literal.exact).floats

/-- Nodes are equal as documents are, so equality goes either way and on from node to node. -/
instance : PartialEquivBEq Node where
  symm h := Json.same_symm _ h
  trans h h' := Json.same_trans _ h h'

/-- A node is equal to itself unless a literal in it is a NaN. -/
theorem beq_self {node : Node} (h : ∀ x ∈ node.floats, x.isNaN = false) : (node == node) = true :=
  Json.same_self _ h

end Node

/-! ## Types -/

section

variable {α : Type} [BEq α] [PartialEquivBEq α]

instance partialEquivBEqOption : PartialEquivBEq (Option α) where
  symm {a b} h := by
    cases a <;> cases b <;> simp_all [BEq.comm]
  trans {a b c} h h' := by
    cases b with
    | none => cases a <;> simp_all
    | some b =>
      cases a with
      | none => simp at h
      | some a =>
        cases c with
        | none => simp at h'
        | some c => exact Option.some_beq_some.trans (BEq.trans h h')

instance partialEquivBEqList : PartialEquivBEq (List α) where
  symm {as bs} h := by
    induction as generalizing bs with
    | nil => cases bs <;> simp_all
    | cons a as ih =>
      cases bs with
      | nil => simp at h
      | cons b bs =>
        rw [List.cons_beq_cons, Bool.and_eq_true] at h ⊢
        exact ⟨BEq.symm h.1, ih h.2⟩
  trans {as bs cs} h h' := by
    induction as generalizing bs cs with
    | nil => cases bs <;> simp_all
    | cons a as ih =>
      cases bs with
      | nil => simp at h
      | cons b bs =>
        cases cs with
        | nil => simp at h'
        | cons c cs =>
          rw [List.cons_beq_cons, Bool.and_eq_true] at h h' ⊢
          exact ⟨BEq.trans h.1 h'.1, ih h.2 h'.2⟩

end

namespace TypePart

/-- Parts are equal if they agree in everything but their nodes, and these are equal. -/
theorem beq_iff {a b : TypePart} :
    (a == b) = true ↔
      ({ a with value := none } : TypePart) = { b with value := none } ∧
        (a.value == b.value) = true := by
  show instBEqTypePart.beq a b = true ↔ _
  simp [instBEqTypePart.beq, and_assoc]

instance : PartialEquivBEq TypePart where
  symm h :=
    have h := beq_iff.mp h
    beq_iff.mpr ⟨h.1.symm, BEq.symm h.2⟩
  trans h h' :=
    have h := beq_iff.mp h
    have h' := beq_iff.mp h'
    beq_iff.mpr ⟨h.1.trans h'.1, BEq.trans h.2 h'.2⟩

/-- No literal in the node of a part is a NaN. -/
def NaNFree (part : TypePart) : Prop := ∀ node ∈ part.value, ∀ x ∈ node.floats, x.isNaN = false

/-- Only a node can keep a part from being equal to itself. -/
theorem NaNFree.beq_self {part : TypePart} (h : part.NaNFree) : (part == part) = true := by
  refine beq_iff.mpr ⟨rfl, ?_⟩
  cases hvalue : part.value with
  | none => rfl
  | some node => exact Option.some_beq_some.trans (node.beq_self (h node hvalue))

end TypePart

namespace TypeTree

/-- Types are equal part by part. -/
theorem beq_iff {a b : TypeTree} : (a == b) = true ↔ (a.parts == b.parts) = true := Iff.rfl

instance : PartialEquivBEq TypeTree where
  symm h := beq_iff.mpr (BEq.symm (beq_iff.mp h))
  trans h h' := beq_iff.mpr (BEq.trans (beq_iff.mp h) (beq_iff.mp h'))

/-- No literal in a node of the type is a NaN. -/
def NaNFree (type : TypeTree) : Prop := ∀ part ∈ type.parts, part.NaNFree

theorem NaNFree.beq_self {type : TypeTree} (h : type.NaNFree) : (type == type) = true := by
  obtain ⟨parts⟩ := type
  rw [beq_iff]
  unfold NaNFree at h
  induction parts with
  | nil => rfl
  | cons part rest ih =>
    obtain ⟨hpart, hrest⟩ := List.forall_mem_cons.mp h
    rw [List.cons_beq_cons, hpart.beq_self, ih hrest]
    rfl

end TypeTree

/-! ## Values -/

namespace Value

mutual

/-- No float in the value is a NaN, down to the entries of dictionaries and the
    literals in types. -/
def NaNFree : Value → Prop
  | .float value => value.isNaN = false
  | .dictionary entries => NaNFreeEntries entries
  | .type tree => tree.NaNFree
  | _ => True

/-- Nor is one in a list of entries. -/
def NaNFreeEntries : List (Value × Option Value) → Prop
  | [] => True
  | (key, value) :: rest => NaNFree key ∧ NaNFreeOption value ∧ NaNFreeEntries rest

def NaNFreeOption : Option Value → Prop
  | none => True
  | some value => NaNFree value

end

mutual

/-- A value without a NaN is equal to itself. -/
theorem same_self : (value : Value) → value.NaNFree → value.same value = true
  | .boolean value, _ => by simp [same]
  | .integer value, _ => by simp [same]
  | .float value, h => float_beq_self h
  | .string value, _ => by simp [same]
  | .dictionary entries, h => sameEntries_self entries h
  | .type tree, h => TypeTree.NaNFree.beq_self h
  | .pointer handle, _ => by simp [same]
  | .reference handle, _ => by simp [same]

/-- Entry by entry, in order. -/
theorem sameEntries_self : (entries : List (Value × Option Value)) → NaNFreeEntries entries →
    sameEntries entries entries = true
  | [], _ => rfl
  | (key, value) :: rest, h => by
    obtain ⟨hkey, hvalue, hrest⟩ := h
    rw [sameEntries, same_self key hkey, sameOption_self value hvalue, sameEntries_self rest hrest]
    rfl

/-- Nil equals nil. -/
theorem sameOption_self : (value : Option Value) → NaNFreeOption value →
    sameOption value value = true
  | none, _ => rfl
  | some value, h => same_self value h

end

mutual

/-- Symmetry for values; types inside them bring their own. -/
theorem same_symm : (a : Value) → {b : Value} → a.same b = true → b.same a = true
  | .boolean x, b, h => by cases b with | boolean y => exact BEq.symm h | _ => cases h
  | .integer x, b, h => by cases b with | integer y => exact BEq.symm h | _ => cases h
  | .float x, b, h => by cases b with | float y => exact BEq.symm h | _ => cases h
  | .string x, b, h => by cases b with | string y => exact BEq.symm h | _ => cases h
  | .dictionary x, b, h => by
    cases b with | dictionary y => exact sameEntries_symm x h | _ => cases h
  | .type x, b, h => by cases b with | type y => exact BEq.symm h | _ => cases h
  | .pointer x, b, h => by cases b with | pointer y => exact BEq.symm h | _ => cases h
  | .reference x, b, h => by cases b with | reference y => exact BEq.symm h | _ => cases h

/-- A dictionary's entries are compared in order, key and value. -/
theorem sameEntries_symm : (as : List (Value × Option Value)) → {bs : List (Value × Option Value)} →
    sameEntries as bs = true → sameEntries bs as = true
  | [], bs, h => by cases bs with | nil => rfl | cons => cases h
  | (k, v) :: as, bs, h => by
    cases bs with
    | nil => cases h
    | cons b bs =>
      rw [sameEntries, Bool.and_eq_true, Bool.and_eq_true] at h ⊢
      exact ⟨⟨same_symm k h.1.1, sameOption_symm v h.1.2⟩, sameEntries_symm as h.2⟩

theorem sameOption_symm : (a : Option Value) → {b : Option Value} → sameOption a b = true →
    sameOption b a = true
  | none, b, h => by cases b with | none => rfl | some => cases h
  | some a, b, h => by cases b with | none => cases h | some b => exact same_symm a h

end

mutual

/-- Transitivity for values.  Numbers come by way of `AlikeFloats`, types by way of their trees. -/
theorem same_trans : (a : Value) → {b c : Value} → a.same b = true →
    b.same c = true → a.same c = true
  | .boolean x, b, c, h, h' => by
    cases b with | boolean y =>
      (cases c with | boolean z => exact BEq.trans h h' | _ => cases h') | _ => cases h
  | .integer x, b, c, h, h' => by
    cases b with | integer y =>
      (cases c with | integer z => exact BEq.trans h h' | _ => cases h') | _ => cases h
  | .float x, b, c, h, h' => by
    cases b with | float y =>
      (cases c with | float z => exact BEq.trans h h' | _ => cases h') | _ => cases h
  | .string x, b, c, h, h' => by
    cases b with | string y =>
      (cases c with | string z => exact BEq.trans h h' | _ => cases h') | _ => cases h
  | .dictionary x, b, c, h, h' => by
    cases b with
    | dictionary y =>
        (cases c with | dictionary z => exact sameEntries_trans x h h' | _ => cases h')
    | _ => cases h
  | .type x, b, c, h, h' => by
    cases b with | type y =>
      (cases c with | type z => exact BEq.trans h h' | _ => cases h') | _ => cases h
  | .pointer x, b, c, h, h' => by
    cases b with | pointer y =>
      (cases c with | pointer z => exact BEq.trans h h' | _ => cases h') | _ => cases h
  | .reference x, b, c, h, h' => by
    cases b with | reference y =>
      (cases c with | reference z => exact BEq.trans h h' | _ => cases h') | _ => cases h

theorem sameEntries_trans : (as : List (Value × Option Value)) →
    {bs cs : List (Value × Option Value)} →
    sameEntries as bs = true → sameEntries bs cs = true → sameEntries as cs = true
  | [], bs, cs, h, h' => by cases bs with | nil => exact h' | cons => cases h
  | (k, v) :: as, bs, cs, h, h' => by
    cases bs with
    | nil => cases h
    | cons b bs =>
      cases cs with
      | nil => cases h'
      | cons c cs =>
        rw [sameEntries, Bool.and_eq_true, Bool.and_eq_true] at h h' ⊢
        exact ⟨⟨same_trans k h.1.1 h'.1.1, sameOption_trans v h.1.2 h'.1.2⟩,
          sameEntries_trans as h.2 h'.2⟩

theorem sameOption_trans : (a : Option Value) → {b c : Option Value} → sameOption a b = true →
    sameOption b c = true → sameOption a c = true
  | none, b, c, h, h' => by cases b with | none => exact h' | some => cases h
  | some a, b, c, h, h' => by
    cases b with | some b =>
      (cases c with | some c => exact same_trans a h h' | none => cases h') | none => cases h

end

instance : PartialEquivBEq Value where
  symm h := same_symm _ h
  trans h h' := same_trans _ h h'

end Value

/-! ## Dictionaries -/

namespace Dictionary

/-- What is put under a key is found under it, if the key is equal to itself. -/
theorem get?_insert_self {key : Value} (hkey : (key == key) = true) (value : Option Value)
    (entries : Dictionary) : get? (insert key value entries) key = value := by
  induction entries with
  | nil => simp [insert, get?, hkey]
  | cons entry rest ih =>
    rw [insert]
    split
    · rename_i hentry
      simp [get?, hentry]
    · rename_i hentry
      simpa [get?, hentry] using ih

end Dictionary

end CompositeGraph
