/-
  FUNCTION SIGNATURES, read back from the flat tree they are written into.

  The parts of a signature stand one after another: requirements, generic parameters with what their
  constraints say, parameters with what their types say, the return type.  A reader finds the
  parameters as the children of the FIRST part that collects parameters, and the return type as the
  first child of the root that collects none.  Every type written on the way
  may add parts in between.

    1. LAYOUT.   `layOut` writes a signature down as `functionSignature` does and notes which parts
                 it made for which nodes.
    2. LAID.     Parameters added to a list: the parts under it are those made, in order.
    3. STAGES.   Generic parameters, list, return type: what a part of the finished tree is for.
    4. READING.  The return type is always read back; the parameters are iff no constraint of a
                 generic parameter has a function type in it, and otherwise
none of them is. -/
import CompositeGraph.Proofs.Filling

namespace CompositeGraph

/-! ## Layout -/

/-- Whether the constraint of some generic parameter has a function type in it. -/
def SignatureParts.constrainsByFunction (parts : SignatureParts Node) : Bool :=
  parts.genericParameters.any fun node => Node.optFunctionType node.constraint?

/-- What a parameter is called and what it defaults to. -/
structure Formal where
  label : Option String
  identifier : Option String
  value : Option Node

/-- What a parameter node declares; other nodes declare nothing. -/
def Node.formal? (node : Node) : Option Formal :=
  match node.form with
  | .parameter label identifier _ value =>
    some ⟨(label.bind Node.identifier?).filter (· != "_"), identifier.bind Node.identifier?, value⟩
  | _ => none

def TypePart.formal (part : TypePart) : Formal := ⟨part.label, part.identifier, part.value⟩

/-- A signature written down, and which of its parts were made for what. -/
structure Layout where
  type : TypeTree
  /-- Indices of the parts made for the parameter nodes, in the order of the nodes. -/
  parameters : List Nat
  /-- Index of the part made for the return type. -/
  result : Nat

namespace Run

open TypeTree

/-- Adds parameters one after the other and notes at which indices. -/
def layParameters (scope : Handle) (parent : Nat) : List Node → TypeTree → Run (TypeTree × List Nat)
  | [], type => return (type, [])
  | node :: rest, type => do
    let grown ← addParameter scope type parent node
    let laid ← layParameters scope parent rest grown
    return (laid.1, if node.formal?.isSome then type.size :: laid.2 else laid.2)

/-- Writes a signature down part by part, with notes. -/
def layOut (scope : Handle) (parts : SignatureParts Node) : Run Layout := do
  let root := TypeTree.ofPart
    { predefined := some (.composite .function), inits := some parts.inits,
      deinits := some parts.deinits, awaits := some parts.awaits, throws := some parts.throws }
  let generic := root.collect (some 0) none .genericParameters
  let type ← parts.genericParameters.foldlM
    (fun type node => addGenericParameter scope type generic.2 node) generic.1
  let parameters := type.collect (some 0) none .parameters
  let laid ← layParameters scope parameters.2 parts.parameters parameters.1
  let type ← addPart scope parts.returnType laid.1 (some 0)
  return ⟨type, laid.2, laid.1.size⟩

variable {scope : Handle} {lookup : Lookup}

theorem foldlM_addParameter (parent : Nat) (nodes : List Node) (type : TypeTree) :
    nodes.foldlM (fun type node => addParameter scope type parent node) type =
      (·.1) <$> layParameters scope parent nodes type := by
  induction nodes generalizing type with
  | nil => rfl
  | cons node rest ih =>
    rw [List.foldlM_cons, layParameters]
    simp only [ih, map_bind, bind_pure_comp, Functor.map_map]

/-- The notes are all that is new. -/
theorem functionSignature_eq_layOut (parts : SignatureParts Node) :
    functionSignature scope parts = (·.type) <$> layOut scope parts := by
  unfold functionSignature layOut
  simp only [foldlM_addParameter, map_bind, map_pure, bind_map_left, bind_pure]

/-- A parameter is a new part of the list, with its names and its default. -/
theorem addParameter_writes (type : TypeTree) (parent : Nat) {node : Node} {formal : Formal}
    (h : node.formal? = some formal) :
    Gives lookup (addParameter scope type parent node) fun t =>
      (∃ b, (type.push (some parent)).Extends type.size b t) ∧
        (t.part type.size).formal = formal := by
  obtain ⟨range, form⟩ := node
  cases form with
  | parameter label identifier declared value =>
    cases h
    refine (addDeclared_gives declared type parent).bind fun t ht => Gives.pure ?_
    refine ⟨⟨_, ht.toExtends.name ?_⟩, ?_⟩
    · exact fun _ => rfl
    · rw [part_adjust _ _ (Nat.lt_of_lt_of_le (by simp) ht.size_le), if_pos rfl]
      rfl
  | _ => cases h

theorem addParameter_of_formal?_eq_none (type : TypeTree) (parent : Nat) {node : Node}
    (h : node.formal? = none) : addParameter scope type parent node = pure type := by
  obtain ⟨range, form⟩ := node
  cases form with
  | parameter label identifier declared value => cases h
  | _ => rfl

end Run

/-! ## Laid -/

/-- Parameters added to a list that stood at `parent`: the parts under it are those made, in order,
    and they carry what the nodes declare. -/
structure Laid (base : TypeTree) (parent : Nat) (formals : List Formal) (type : TypeTree)
    (made : List Nat) : Prop where
  grown : ∃ b, base.Extends parent b type
  later : ∀ i ∈ made, base.size ≤ i
  sorted : made.Pairwise (· < ·)
  mem_iff : ∀ i, base.size ≤ i → (i ∈ made ↔ (type.part i).parent = some parent)
  formals_eq : made.map (fun i => (type.part i).formal) = formals

namespace Laid

open TypeTree

variable {base grown type : TypeTree} {parent : Nat} {formals : List Formal}
  {made : List Nat} {b : Bool}

theorem nil (base : TypeTree) (parent : Nat) : Laid base parent [] base [] where
  grown := ⟨false, Extends.refl base parent⟩
  later _ h := absurd h List.not_mem_nil
  sorted := List.Pairwise.nil
  mem_iff i hi := by
    rw [part_of_size_le hi]
    simp
  formals_eq := rfl

/-- One more parameter before the others. -/
theorem cons (hp : parent < base.size) (hpart : (base.push (some parent)).Extends base.size b grown)
    (h : Laid grown parent formals type made) :
    Laid base parent ((grown.part base.size).formal :: formals) type (base.size :: made) := by
  obtain ⟨b', hrest⟩ := h.grown
  have hlt : base.size < grown.size := Nat.lt_of_lt_of_le (by simp) hpart.size_le
  have hlater : ∀ i ∈ made, base.size < i := fun i hi => Nat.lt_of_lt_of_le hlt (h.later i hi)
  refine ⟨⟨_, (hpart.of_push hp).trans (Or.inl rfl) hrest⟩, ?_, ?_, ?_, ?_⟩
  · intro i hi
    rcases List.mem_cons.mp hi with rfl | hi
    · exact Nat.le_refl _
    · exact Nat.le_of_lt (hlater i hi)
  · exact List.pairwise_cons.mpr ⟨hlater, h.sorted⟩
  · intro i hi
    rw [List.mem_cons]
    -- the part itself, the parts below it, the parts of the parameters after it
    rcases Nat.lt_or_ge i grown.size with hold | hnew
    · have hnot : i ∉ made := fun hmem => absurd (h.later i hmem) (by omega)
      rw [or_iff_left hnot, hrest.parent_eq hold]
      constructor
      · rintro rfl
        exact congrArg (·.1) hpart.role_of_push
      · intro hparent
        rcases Nat.eq_or_lt_of_le hi with heq | hgt
        · exact heq.symm
        · obtain ⟨j, _, hj, hwithin⟩ := hpart.under i (by rw [size_push]; omega) hold
          rw [hj, Option.some.injEq] at hparent
          rcases hwithin with hwithin | hwithin
          · omega
          · rw [size_push] at hwithin
            omega
    · rw [h.mem_iff i hnew]
      exact or_iff_right (by omega)
  · have hhead : type.part base.size = grown.part base.size := hrest.kept _ hlt (by omega)
    rw [List.map_cons, hhead, h.formals_eq]

end Laid

namespace Run

open TypeTree

variable {scope : Handle} {lookup : Lookup}

theorem layParameters_gives (nodes : List Node) {type : TypeTree} {parent : Nat}
    (hi : parent < type.size) : Gives lookup (layParameters scope parent nodes type) fun laid =>
      Laid type parent (nodes.filterMap Node.formal?) laid.1 laid.2 := by
  induction nodes generalizing type with
  | nil => exact Gives.pure (Laid.nil type parent)
  | cons node rest ih =>
    rw [layParameters]
    cases hformal : node.formal? with
    | none =>
      rw [addParameter_of_formal?_eq_none type parent hformal, pure_bind]
      refine (ih hi).bind fun laid hlaid => Gives.pure ?_
      rw [List.filterMap_cons_none hformal]
      exact hlaid
    | some formal =>
      refine (addParameter_writes type parent hformal).bind fun grown hgrown => ?_
      obtain ⟨⟨b, hpart⟩, rfl⟩ := hgrown
      refine (ih (Nat.lt_of_lt_of_le hi (hpart.of_push hi).size_le)).bind fun laid hlaid =>
        Gives.pure ?_
      rw [List.filterMap_cons_some hformal]
      exact Laid.cons hi hpart hlaid

end Run

/-! ## Stages -/

namespace TypeTree

@[simp] theorem size_collect_parameters (type : TypeTree) :
    (type.collect (some 0) none .parameters).1.size = type.size + 1 := by simp [collect]

theorem part_collect_parameters (type : TypeTree) (i : Nat) :
    (type.collect (some 0) none .parameters).1.part i =
      if type.size = i then { parent := some 0, parameters := true } else type.part i := by
  show ((type.push (some 0)).adjust type.size _).part i = _
  rw [part_adjust _ _ (by simp), part_push]
  split
  · rw [if_pos (by omega)]
    rfl
  · rw [if_neg (by omega)]

end TypeTree

/-- The stages a signature is written in: generic parameters under the part at 1, then a list with
    the parameters, then the return type.  The list stands where the generic parameters ended. -/
structure Stages (constrained : Bool) (formals : List Formal) (before laid type : TypeTree)
    (made : List Nat) : Prop where
  generic : ∃ base : TypeTree, base.size = 2 ∧ (base.part 0).role = (none, false, false) ∧
    (base.part 1).role = (some 0, false, true) ∧ base.Extends 1 constrained before
  parameters : Laid (before.collect (some 0) none .parameters).1 before.size formals laid made
  result : ∃ b, (laid.push (some 0)).Extends laid.size b type

namespace Stages

open TypeTree

variable {constrained : Bool} {formals : List Formal} {before laid type : TypeTree}
  {made : List Nat} {i : Nat}

section

variable (h : Stages constrained formals before laid type made)

include h

theorem list_lt : before.size < laid.size := by
  obtain ⟨b, hgrown⟩ := h.parameters.grown
  exact Nat.lt_of_lt_of_le (by simp) hgrown.size_le

theorem result_lt : laid.size < type.size := by
  obtain ⟨b, hresult⟩ := h.result
  exact Nat.lt_of_lt_of_le (by simp) hresult.size_le

/-- The return type changes nothing before it. -/
theorem part_eq (hi : i < laid.size) :
    type.part i = laid.part i := by
  obtain ⟨b, hresult⟩ := h.result
  rw [hresult.kept i (by rw [size_push]; omega) (Nat.ne_of_lt hi), part_push,
    if_neg (Nat.ne_of_lt hi)]

/-- The parameters leave the roles of what was there before them. -/
theorem role_eq (hi : i < before.size) :
    (type.part i).role = (before.part i).role := by
  obtain ⟨b, hgrown⟩ := h.parameters.grown
  rw [h.part_eq (Nat.lt_trans hi h.list_lt), hgrown.role i (by rw [size_collect_parameters]; omega),
    part_collect_parameters, if_neg (Nat.ne_of_gt hi)]

theorem role_list :
    (type.part before.size).role = (some 0, true, false) := by
  obtain ⟨b, hgrown⟩ := h.parameters.grown
  rw [h.part_eq h.list_lt, hgrown.role _ (by simp), part_collect_parameters, if_pos rfl]
  rfl

theorem role_result :
    (type.part laid.size).role = (some 0, false, false) := by
  obtain ⟨b, hresult⟩ := h.result
  exact hresult.role_of_push

/-- Before the list stand the root, the generic parameters under it, and parts under those. -/
theorem role_before (hi : i < before.size) :
    i < 2 ∧ ((type.part i).role = (none, false, false) ∨
      (type.part i).role = (some 0, false, true)) ∨
      2 ≤ i ∧ ∃ j, 1 ≤ j ∧ j < i ∧ (type.part i).parent = some j := by
  obtain ⟨base, hsize, hroot, hone, hgrown⟩ := h.generic
  rcases Nat.lt_or_ge i 2 with hlt | hge
  · refine Or.inl ⟨hlt, ?_⟩
    rw [h.role_eq hi, hgrown.role i (by omega)]
    rcases (by omega : i = 0 ∨ i = 1) with rfl | rfl
    · exact Or.inl hroot
    · exact Or.inr hone
  · obtain ⟨j, hlt, hj, hwithin⟩ := hgrown.under i (by omega) hi
    refine Or.inr ⟨hge, j, ?_, hlt, (congrArg (·.1) (h.role_eq hi)).trans hj⟩
    rcases hwithin with hwithin | hwithin <;> omega

/-- Between the list and the return type nothing stands under the root. -/
theorem parent_between (hgt : before.size < i)
    (hlt : i < laid.size) : (type.part i).parent ≠ some 0 := by
  obtain ⟨base, hsize, _, _, hgeneric⟩ := h.generic
  have hle := hgeneric.size_le
  obtain ⟨b, hgrown⟩ := h.parameters.grown
  obtain ⟨j, _, hj, hwithin⟩ := hgrown.under i (by rw [size_collect_parameters]; omega) hlt
  rw [h.part_eq hlt, hj, ne_eq, Option.some.injEq]
  rcases hwithin with hwithin | hwithin
  · omega
  · rw [size_collect_parameters] at hwithin
    omega

/-- A parameter list stands before the one of the signature iff a constraint has brought one. -/
theorem constrained_iff :
    constrained = true ↔ ∃ i < before.size, (type.part i).parameters = true := by
  obtain ⟨base, hsize, hroot, hone, hgrown⟩ := h.generic
  have hsame : ∀ i < before.size, (type.part i).parameters = (before.part i).parameters :=
    fun i hi => congrArg (·.2.1) (h.role_eq hi)
  rw [hgrown.functional_iff]
  constructor
  · rintro ⟨i, _, hflag⟩
    have hi := lt_size_of_parameters hflag
    exact ⟨i, hi, (hsame i hi).trans hflag⟩
  · rintro ⟨i, hi, hflag⟩
    refine ⟨i, ?_, (hsame i hi).symm.trans hflag⟩
    rcases h.role_before hi with ⟨_, hrole | hrole⟩ | ⟨hge, _⟩
    · exact absurd ((congrArg (·.2.1) hrole).symm.trans hflag) Bool.false_ne_true
    · exact absurd ((congrArg (·.2.1) hrole).symm.trans hflag) Bool.false_ne_true
    · omega

theorem mem_made_lt (hi : i ∈ made) :
    before.size < i ∧ i < laid.size := by
  have hlater := h.parameters.later i hi
  refine ⟨by rwa [size_collect_parameters] at hlater, ?_⟩
  exact lt_size_of_parent ((h.parameters.mem_iff i hlater).mp hi)

/-- What stands under the list is what was made for the parameters. -/
theorem mem_made_iff (i : Nat) :
    i ∈ made ↔ (type.part i).parent = some before.size := by
  constructor
  · intro hi
    obtain ⟨hgt, hlt⟩ := h.mem_made_lt hi
    rw [h.part_eq hlt]
    exact (h.parameters.mem_iff i (by rw [size_collect_parameters]; omega)).mp hi
  · intro hparent
    obtain ⟨base, hsize, _, _, hgeneric⟩ := h.generic
    have hle := hgeneric.size_le
    -- only between the list and the return type can a part name the list
    rcases Nat.lt_trichotomy i before.size with hlt | rfl | hgt
    · exfalso
      rcases h.role_before hlt with ⟨_, hrole | hrole⟩ | ⟨_, j, _, hj, hrole⟩
      · exact absurd ((congrArg (·.1) hrole).symm.trans hparent) (by simp)
      · have := Option.some.inj ((congrArg (·.1) hrole).symm.trans hparent)
        omega
      · have := Option.some.inj (hrole.symm.trans hparent)
        omega
    · have := Option.some.inj ((congrArg (·.1) h.role_list).symm.trans hparent)
      omega
    · rcases Nat.lt_trichotomy i laid.size with hlt | rfl | hbehind
      · rw [h.part_eq hlt] at hparent
        exact (h.parameters.mem_iff i (by rw [size_collect_parameters]; omega)).mpr hparent
      · have := Option.some.inj ((congrArg (·.1) h.role_result).symm.trans hparent)
        omega
      · obtain ⟨b, hresult⟩ := h.result
        obtain ⟨j, _, hj, hwithin⟩ :=
          hresult.under i (by rw [size_push]; omega) (lt_size_of_parent hparent)
        have hlist := h.list_lt
        have := Option.some.inj (hj.symm.trans hparent)
        rcases hwithin with hwithin | hwithin
        · omega
        · rw [size_push] at hwithin
          omega

theorem return?_eq : type.return? = some laid.size := by
  have hrole := h.role_result
  simp only [TypePart.role, Prod.mk.injEq] at hrole
  refine return?_eq_some h.result_lt hrole ?_
  intro i hi hparent
  rcases Nat.lt_trichotomy i before.size with hlt | rfl | hgt
  · rcases h.role_before hlt with ⟨_, hrole | hrole⟩ | ⟨_, j, hj, _, hrole⟩
    · exact absurd ((congrArg (·.1) hrole).symm.trans hparent) (by simp)
    · exact Or.inr (congrArg (·.2.2) hrole)
    · have := Option.some.inj (hrole.symm.trans hparent)
      omega
  · exact Or.inl (congrArg (·.2.1) h.role_list)
  · exact absurd hparent (h.parent_between hgt hi)

theorem children_list : type.children before.size = made := by
  have hsorted : (type.children before.size).Pairwise (· < ·) := by
    rw [children_eq]
    exact List.pairwise_lt_range.filter _
  refine hsorted.eq_of_mem_iff h.parameters.sorted ?_
  intro i
  rw [mem_children, h.mem_made_iff i, and_iff_right_iff_imp]
  exact lt_size_of_parent

theorem formals_eq :
    made.map (fun i => (type.part i).formal) = formals := by
  rw [← h.parameters.formals_eq]
  refine List.map_congr_left fun i hi => ?_
  rw [h.part_eq (h.mem_made_lt hi).2]

end

theorem parameters_eq (h : Stages false formals before laid type made) :
    type.parameters = made := by
  rw [← h.children_list]
  refine flagged_eq_children (Nat.lt_trans h.list_lt h.result_lt) (congrArg (·.2.1) h.role_list) ?_
  intro j hj
  rw [← Bool.not_eq_true]
  intro hflag
  exact Bool.false_ne_true (h.constrained_iff.mpr ⟨j, hj, hflag⟩)

/-- A parameter list in a constraint comes first, and is taken for the one of the signature. -/
theorem not_mem_parameters (h : Stages true formals before laid type made) (hi : i ∈ made) :
    i ∉ type.parameters := by
  obtain ⟨j, hj, hflag⟩ := h.constrained_iff.mp rfl
  obtain ⟨first, hle, hfirst⟩ :=
    exists_flagged_eq (·.parameters) (lt_size_of_parameters hflag) hflag
  rw [TypeTree.parameters, hfirst, mem_children, (h.mem_made_iff i).mp hi]
  rintro ⟨_, heq⟩
  rw [Option.some.injEq] at heq
  omega

end Stages

/-! ## Reading -/

namespace Run

open TypeTree

theorem layOut_gives (lookup : Lookup) (scope : Handle) (parts : SignatureParts Node) :
    Gives lookup (layOut scope parts) fun layout =>
      ∃ before laid, layout.result = laid.size ∧
        Stages parts.constrainsByFunction (parts.parameters.filterMap Node.formal?)
          before laid layout.type
          layout.parameters := by
  unfold layOut
  refine Gives.bind (foldlM_gives (fun node => addGenericParameter_gives node)
    parts.genericParameters Nat.one_lt_two)
    fun before hbefore => ?_
  have hlist : before.size < (before.collect (some 0) none .parameters).1.size := by simp
  refine (layParameters_gives parts.parameters hlist).bind fun laid hlaid => ?_
  refine (addPart_gives parts.returnType laid.1 (some 0)).bind fun type htype => Gives.pure ?_
  exact ⟨before, laid.1, rfl, ⟨_, rfl, rfl, rfl, hbefore.toExtends⟩, hlaid, _, htype.toExtends⟩

/-- A signature read back from its tree.  Writing it down always comes to an end.  The return type
    that is read is the part made for it.  The parts made for the parameter nodes carry what the
    nodes declare, in their order; they are the parameters that are read, unless the constraint of a
    generic parameter has a function type in it, and then none of them is read. -/
theorem functionSignature_reads_back (scope : Handle) (parts : SignatureParts Node) (m : Machine) :
    ∃ layout m', layOut scope parts m = .ok (layout, m') ∧
      functionSignature scope parts m = .ok (layout.type, m') ∧
      layout.type.return? = some layout.result ∧
      layout.parameters.map (fun i => (layout.type.part i).formal) =
        parts.parameters.filterMap Node.formal? ∧
      if parts.constrainsByFunction then ∀ i ∈ layout.parameters, i ∉ layout.type.parameters
      else layout.type.parameters = layout.parameters := by
  obtain ⟨layout, reports, hrun, before, laid, hresult, hstages⟩ :=
    layOut_gives m.lookup scope parts m rfl
  refine ⟨layout, _, hrun, ?_, hresult ▸ hstages.return?_eq, hstages.formals_eq, ?_⟩
  · rw [functionSignature_eq_layOut]
    show (layOut scope parts m >>= fun r => Except.ok (r.1.type, r.2)) = _
    rw [hrun]
    rfl
  · cases hconstrained : parts.constrainsByFunction with
    | false => exact (hconstrained ▸ hstages).parameters_eq
    | true =>
      intro i hi
      exact (hconstrained ▸ hstages).not_mem_parameters hi

/-- One generic parameter whose constraint is the type of functions from integers to integers, and
    one parameter `x`. -/
def callbackConstrained : SignatureParts Node :=
  let integer := Node.bare (.predefinedType "int")
  { genericParameters :=
      [.bare (.genericParameter (some (.bare (.identifier "T")))
        (some (.bare (.functionType [] [integer] .absent .absent (some integer)))))]
    parameters := [.bare (.parameter none (some (.bare (.identifier "x"))) none none)] }

/-- The part that is read is the integer of the constraint, and not the one made for `x`. -/
theorem constraint_hides_parameters :
    (layOut ⟨0, 0⟩ callbackConstrained {}).map (fun r => (r.1.type.parameters, r.1.parameters)) =
      .ok ([5], [8]) := by
  decide +kernel

end Run

end CompositeGraph
