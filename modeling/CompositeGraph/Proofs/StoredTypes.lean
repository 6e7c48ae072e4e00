/-
  STORED TYPES: what a program leaves in the store are trees of single parts.

  Types get into the store in many places: composites and members have them, generic arguments are
  bound as values, and a value can be a type, or a dictionary with types in it.  A type that is
  stored was built while the program was read, is provided by the machine, or was in the store
  before, as a whole or as a part of another.  All of these are sound.  So whatever goes through the
  parts of a stored type from parent to child comes to an end.

    1. UNFOLDING.  `TypeTree.Unfolds`, with no bound on the depth.
    2. STORES.     The discipline that all types in the store are sound.
    3. PROGRAMS.   What every program leaves behind.
-/
import CompositeGraph.Program
import CompositeGraph.Proofs.Acceptance
import CompositeGraph.Proofs.Safety
import CompositeGraph.Proofs.Plain

namespace CompositeGraph

/-! ## Unfolding -/

namespace TypeTree

variable {type : TypeTree} {i : Nat} {b : Branch}

/-- A part with all that is below it, unfolded to the end: a part below which there is always
    another one would have no derivation. -/
inductive Unfolds (type : TypeTree) : Nat → Branch → Prop where
  | node (i : Nat) (below : Nat → Branch) : (∀ j ∈ type.children i, Unfolds type j (below j)) →
    Unfolds type i (.node (type.part i) ((type.children i).map below))

/-- Every part can be unfolded to the end, and in one way only. -/
theorem WellFormed.unfolds_iff (h : type.WellFormed) : type.Unfolds i b ↔ b = type.branch i := by
  constructor
  · intro hunfolds
    induction hunfolds with
    | node i below _ ih => rw [h.branch_eq, List.map_congr_left ih]
  · rintro rfl
    -- children stand behind their parent, so there are fewer and fewer parts left
    induction hleft : type.size - i using Nat.strong_induction_on generalizing i with
    | _ left ih =>
      rw [h.branch_eq]
      refine .node i type.branch fun j hj => ih (type.size - j) ?_ rfl
      have hlt := h.lt_of_mem_children hj
      have hsize := (mem_children.mp hj).1
      omega

/-- The part can be unfolded to the end, and to this branch only. -/
def UnfoldsTo (type : TypeTree) (i : Nat) (b : Branch) : Prop := ∀ b', type.Unfolds i b' ↔ b' = b

theorem Sound.unfoldsTo (h : type.Sound) (i : Nat) : type.UnfoldsTo i (type.branch i) :=
  fun _ => h.wellFormed.unfolds_iff

end TypeTree

/-! ## Stores -/

/-- Every type that stands in a composite of the store is sound. -/
def Store.TypesSound (s : Store) : Prop := ∀ h c, s.get? h = some c → ∀ type ∈ c.types, type.Sound

theorem Store.typesSound_empty : Store.empty.TypesSound := by
  intro h c hget
  simp [Store.get?, Store.empty] at hget

namespace Store.TypesSound

variable {s : Store} (hs : s.TypesSound)

include hs

theorem modify (h : Handle) {f : Composite → Composite}
    (hf : ∀ c, s.get? h = some c → ∀ type ∈ (f c).types, type.Sound) :
    (s.modify h f).TypesSound := by
  intro x c hget
  rw [get?_modify] at hget
  split at hget
  · obtain ⟨d, hd, rfl⟩ := Option.map_eq_some_iff.mp hget
    exact hf d hd
  · exact hs x c hget

/-- A composite changes, but for its types. -/
theorem modify_same (h : Handle) {f : Composite → Composite} (hf : ∀ c, (f c).types = c.types) :
    (s.modify h f).TypesSound :=
  hs.modify h fun c hget => by rw [hf]; exact hs h c hget

theorem add (title : Option String) {type : TypeTree} (htype : type.Sound) :
    (s.add (.fresh title type)).1.TypesSound := by
  intro x c hget
  rw [get?_add] at hget
  split at hget
  · cases hget
    rintro t ht
    rw [List.mem_singleton.mp ht]
    exact htype
  · exact hs x c hget

theorem free (h : Handle) : (s.free h).TypesSound := by
  intro x c hget
  rw [get?_free] at hget
  split at hget
  · cases hget
  · exact hs x c hget

end Store.TypesSound

namespace Discipline

/-- All types in the store are sound. -/
def soundness : Discipline where
  holds := Store.TypesSound
  leads _ _ := True
  known _ _ := True
  strict := True
  leads_refl _ := trivial
  leads_trans _ _ := trivial
  known_mono _ _ := trivial
  known_there _ := trivial
  known_named _ _ _ := trivial
  sound_stored _ hs hget ht := hs _ _ hget _ ht

instance : soundness.Storewise := ⟨rfl⟩

theorem permits_soundness : soundness.PermitsEnding where
  known _ _ := trivial
  amend h _ htypes hs := ⟨hs.modify h (htypes trivial), trivial⟩
  assign _ _ _ _ hs := ⟨hs.modify_same _ fun _ => rfl, trivial⟩
  add title _ htype hs := ⟨hs.add title (htype trivial), trivial⟩
  die h hs := ⟨hs.modify_same h fun _ => rfl, trivial⟩
  free h hs := ⟨hs.free h, trivial⟩

end Discipline

open Discipline Run

/-- A module leaves sound types where it found none. -/
theorem Run.typesSound_of_runModule {depth : Nat} {tree : Node} {m m' : Machine}
    (hm : soundness.Fits m)
    (hrun : runModule (rules depth) tree m = .ok ((), m')) : m'.store.TypesSound := by
  obtain ⟨ho, hd⟩ := permits_soundness.obeys depth
  have ha := permits_soundness.admits (collecting_of_destroy hd)
  exact ((runModule_keeps ha ho tree hm).post hrun).holds

/-! ## Programs -/

namespace Program

open Sketch

theorem typesSound_of_interpret {program : Program} {preferences : Preferences}
    {done : Interpretation}
    (h : program.interpret .empty preferences = some done) : done.store.TypesSound := by
  unfold interpret Rules.unbounded at h
  obtain ⟨⟨⟩, m, hrun, rfl⟩ := Run.exists_ok_of_map h
  refine Run.typesSound_of_runModule ?_ hrun
  exact ⟨Store.typesSound_empty, fun t ht => absurd ht List.not_mem_nil, trivial⟩

/-- Every type that a program leaves in the store, be it of a composite or a member or a value in a
    member, is a tree of parts that each collect things of one sort at most.  Every part of such
    types can be unfolded to the end.  So there is a subtype for each of them, which is the flat
    type of what it unfolds to, and comparing two of them comes to an end as well: the answer is
    that of acceptance between what they unfold to. -/
theorem stored_types_sound {program : Program} {preferences : Preferences} {done : Interpretation}
    (hrun : program.interpret .empty preferences = some done) :
    (∀ handle composite, done.store.get? handle = some composite →
      ∀ type ∈ composite.types, type.Sound) ∧
      ∀ type given : TypeTree, type.Sound → given.Sound → ∀ i j, ∃ b g,
        type.UnfoldsTo i b ∧ given.UnfoldsTo j g ∧
        type.subtype? i = some (if i < type.size then b.flatten else .empty) ∧
        ∀ lineage, type.partAccepts? lineage i given j = some (b.accepts lineage g) ∧
          (type.accepts? lineage given).isSome := by
  refine ⟨typesSound_of_interpret hrun, fun type given htype hgiven i j => ?_⟩
  have hcompared : ∀ lineage, type.partAccepts? lineage i given j =
        some ((type.branch i).accepts lineage (given.branch j)) ∧
        (type.accepts? lineage given).isSome :=
    fun lineage => ⟨htype.wellFormed.partAccepts?_eq hgiven.wellFormed lineage i j,
      htype.wellFormed.accepts?_isSome hgiven.wellFormed lineage⟩
  exact ⟨type.branch i, given.branch j, htype.unfoldsTo i, hgiven.unfoldsTo j,
    htype.wellFormed.subtype?_eq i, hcompared⟩

/-- A class that is generic and inherits, and a variable for one of two things: a function, or an
    array of what may be nil.  Its value has a type in it. -/
def annotated : Program where
  tree :=
    let text : Node := .bare (.predefinedType "String")
    let function : Node := .bare (.functionType [text] [text, text] .absent .absent (some text))
    let array : Node := .bare (.arrayType (some (.bare (.modifiedType .nillable (some function)))))
    .bare (.module
      [.bare (.compositeDeclaration .class ⟨[], some (named "A"), [], [], some (body [])⟩),
        .bare (.compositeDeclaration .class ⟨[], some (named "B"),
          [.bare (.genericParameter (some (named "T")) none)],
          [.bare (.typeIdentifier (some (named "A")) [text])], some (body [])⟩),
        .bare (.variableDeclaration [] [.bare (.declarator (some (named "x"))
          (some (.bare (.modifiedType .nillable (some (.bare (.unionType [function, array]))))))
          (some (.bare (.arrayLiteral [.bare (.typeExpression (some array))]))) none)])])

/-- The outermost namespace of that program has a type with sixteen parts in it, and one with eight
    in a dictionary. -/
theorem stored_types_sound_annotated : ∃ done composite, annotated.interpret .empty {} = some done ∧
    done.store.get? ⟨0, 0⟩ = some composite ∧
      composite.types.map TypeTree.size = [1, 1, 1, 1, 1, 1, 16, 8] ∧
    ∀ type ∈ composite.types, type.Sound ∧ ∀ i, ∃ b, type.UnfoldsTo i b := by
  have hchecks : (annotated.interpret .empty {}).any
    (fun done => (done.store.get? ⟨0, 0⟩).any fun composite =>
      decide (composite.types.map TypeTree.size = [1, 1, 1, 1, 1, 1, 16, 8])) = true := by
    decide +kernel
  obtain ⟨done, hrun, hdone⟩ := (Option.any_eq_true _ _).mp hchecks
  obtain ⟨composite, hget, hsizes⟩ := (Option.any_eq_true _ _).mp hdone
  obtain ⟨hsound, hends⟩ := stored_types_sound hrun
  refine ⟨done, composite, hrun, hget, of_decide_eq_true hsizes, fun type htype => ?_⟩
  have htype := hsound ⟨0, 0⟩ composite hget type htype
  refine ⟨htype, fun i => ?_⟩
  obtain ⟨b, -, hb, -⟩ := hends type type htype htype i i
  exact ⟨b, hb⟩

end Program

end CompositeGraph
