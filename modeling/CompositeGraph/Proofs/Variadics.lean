/-
  VARIADIC PARTS take in what the parts around them leave.

  Two lists of parts are compared from the front.  An expected part takes one given part, and a
  variadic one takes all but as many as are expected behind it.  So those behind it find as many
  left as they are, and take one each.  A list is compared part by part until an answer settles it;
  there is no answer if one that is needed is missing.

    1. ANSWERS.   Questions about the items of a list, asked until one answer settles it.
    2. LOCKSTEP.  The parts before a variadic one, and the variadic one with those behind it.
    3. SPLITS.    `TypeTree.Splits`: the given parts dealt out to the expected ones.  Lockstep finds
                  out whether they can be.
-/
import Mathlib.Data.List.Forall2
import CompositeGraph.TypeTree.Accepts

namespace CompositeGraph

/-! ## Answers -/

section Answers

variable {α : Type} {ask : α → Option Bool} {items : List α}

/-- All are asked about as long as the answer is yes. -/
theorem allM_cons (ask : α → Option Bool) (item : α) (items : List α) :
    (item :: items).allM ask =
      (ask item).bind fun yes => if yes then items.allM ask else some false := by
  rw [List.allM]
  cases ask item with
  | none => rfl
  | some yes => cases yes <;> rfl

theorem allM_eq_some_true_iff : items.allM ask = some true ↔ ∀ item ∈ items,
    ask item = some true := by
  induction items with
  | nil => simp [List.allM]
  | cons item items ih =>
    rw [allM_cons, List.forall_mem_cons, ← ih]
    cases ask item with
    | none => simp
    | some yes => cases yes <;> simp

end Answers

/-! ## Lockstep -/

namespace TypeTree

variable {ask : Comparison} {t u : TypeTree} {front back es gs : List Nat} {e g v : Nat}

/-- A part that is not variadic is asked about the first given one. -/
theorem lockstepBy_single_eq (he : (t.part e).variadic = false) :
    lockstepBy ask t u (e :: es) (g :: gs) =
      (ask t e u g).bind fun yes => if yes then lockstepBy ask t u es gs else some false := by
  rw [lockstepBy, he, if_neg Bool.false_ne_true]
  rfl

theorem lockstepBy_single_nil (he : (t.part e).variadic = false) :
    lockstepBy ask t u (e :: es) [] = some false := by
  rw [lockstepBy, he, if_neg Bool.false_ne_true]

/-- A variadic part is asked about all but as many as are expected behind it. -/
theorem lockstepBy_variadic_eq (hv : (t.part v).variadic = true) :
    lockstepBy ask t u (v :: back) gs =
      if back.length ≤ gs.length then
        ((gs.take (gs.length - back.length)).allM (ask t v u)).bind fun yes =>
          if yes then lockstepBy ask t u back (gs.drop (gs.length - back.length)) else some false
      else some false := by
  rw [lockstepBy.eq_def]
  exact if_pos hv

theorem lockstepBy_cons_of_not_variadic (he : (t.part e).variadic = false) :
    lockstepBy ask t u (e :: es) (g :: gs) = some true ↔
      ask t e u g = some true ∧ lockstepBy ask t u es gs = some true := by
  rw [lockstepBy_single_eq he]
  cases ask t e u g with
  | none => simp
  | some yes => cases yes <;> simp

theorem lockstepBy_cons_of_variadic (hv : (t.part v).variadic = true) :
    lockstepBy ask t u (v :: back) gs = some true ↔
      back.length ≤ gs.length ∧ (∀ g ∈ gs.take (gs.length - back.length), ask t v u g = some true) ∧
        lockstepBy ask t u back (gs.drop (gs.length - back.length)) = some true := by
  rw [lockstepBy_variadic_eq hv, ← allM_eq_some_true_iff]
  split
  · rename_i henough
    cases (gs.take (gs.length - back.length)).allM (ask t v u) with
    | none => simp
    | some yes => cases yes <;> simp [henough]
  · rename_i hshort
    simp [hshort]

/-- Parts that are not variadic take one each, and leave the others to those behind them. -/
theorem lockstepBy_append_iff (hfront : ∀ e ∈ front, (t.part e).variadic = false) :
    lockstepBy ask t u (front ++ back) gs = some true ↔
      ∃ before rest, gs = before ++ rest ∧
        List.Forall₂ (fun e g => ask t e u g = some true) front before ∧
        lockstepBy ask t u back rest = some true := by
  induction front generalizing gs with
  | nil => simp
  | cons e front ih =>
    obtain ⟨he, hfront⟩ := List.forall_mem_cons.mp hfront
    cases gs with
    | nil => simp [lockstepBy_single_nil he]
    | cons g gs =>
      rw [List.cons_append, lockstepBy_cons_of_not_variadic he, ih hfront]
      constructor
      · rintro ⟨hg, before, rest, rfl, hbefore, h⟩
        exact ⟨g :: before, rest, rfl, .cons hg hbefore, h⟩
      · rintro ⟨before, rest, hgiven, hpairs, h⟩
        obtain ⟨g', before, hg, hbefore, rfl⟩ := List.forall₂_cons_left_iff.mp hpairs
        obtain ⟨rfl, rfl⟩ := List.cons.inj hgiven
        exact ⟨hg, before, rest, rfl, hbefore, h⟩

/-- Without variadic parts, as many are given as are expected, one for each. -/
theorem lockstepBy_iff_forall₂ (hsingle : ∀ e ∈ es, (t.part e).variadic = false) :
    lockstepBy ask t u es gs = some true ↔
      List.Forall₂ (fun e g => ask t e u g = some true) es gs := by
  rw [← List.append_nil es, lockstepBy_append_iff hsingle, List.append_nil]
  constructor
  · rintro ⟨before, rest, rfl, hpairs, hrest⟩
    rw [lockstepBy, Option.some.injEq, List.isEmpty_iff] at hrest
    rwa [hrest, List.append_nil]
  · exact fun hpairs => ⟨gs, [], (List.append_nil gs).symm, hpairs, rfl⟩

/-- Where as many are given as are expected, each takes one.  A variadic part is no exception, for
    those behind it need all the others. -/
theorem lockstepBy_iff_forall₂_of_length_eq (hlength : es.length = gs.length) :
    lockstepBy ask t u es gs = some true ↔
      List.Forall₂ (fun e g => ask t e u g = some true) es gs := by
  induction es generalizing gs with
  | nil =>
    rw [lockstepBy, Option.some.injEq, List.isEmpty_iff, List.forall₂_nil_left_iff]
  | cons e es ih =>
    obtain ⟨g, gs, rfl⟩ := List.exists_cons_of_length_eq_add_one hlength.symm
    have hrest : es.length = gs.length := Nat.succ.inj hlength
    rw [List.forall₂_cons, ← ih hrest]
    cases he : (t.part e).variadic with
    | true =>
      have hone : (g :: gs).length - es.length = 1 := by
        rw [List.length_cons]
        omega
      rw [lockstepBy_cons_of_variadic he, hone]
      simp [hrest]
    | false => exact lockstepBy_cons_of_not_variadic he

/-- A variadic part takes in what those behind it leave, which take one each. -/
theorem lockstepBy_variadic_iff (hv : (t.part v).variadic = true) :
    lockstepBy ask t u (v :: back) gs = some true ↔
      ∃ absorbed after, gs = absorbed ++ after ∧ (∀ g ∈ absorbed, ask t v u g = some true) ∧
        List.Forall₂ (fun e g => ask t e u g = some true) back after := by
  rw [lockstepBy_cons_of_variadic hv]
  constructor
  · rintro ⟨henough, htaken, hrest⟩
    have hlength : back.length = (gs.drop (gs.length - back.length)).length := by
      rw [List.length_drop]
      omega
    exact ⟨_, _, (List.take_append_drop _ gs).symm, htaken,
      (lockstepBy_iff_forall₂_of_length_eq hlength).mp hrest⟩
  · rintro ⟨absorbed, after, rfl, habsorbed, hafter⟩
    have hlength : back.length = after.length := hafter.length_eq
    have htaken : (absorbed ++ after).length - back.length = absorbed.length := by
      rw [List.length_append]
      omega
    rw [htaken, List.take_left, List.drop_left, List.length_append]
    exact ⟨by omega, habsorbed, (lockstepBy_iff_forall₂_of_length_eq hlength).mpr hafter⟩

/-! ## Splits -/

variable {lineage : Lineage}

/-- The given parts of one type dealt out to the expected parts of another: one for each, or one for
    each around a variadic part and any number for that. -/
inductive Splits (lineage : Lineage) (t u : TypeTree) : (expected given : List Nat) → Prop where
  | single {expected given : List Nat} :
    (∀ e ∈ expected, (t.part e).variadic = false) →
    List.Forall₂ (fun e g => t.partAccepts? lineage e u g = some true) expected given →
    Splits lineage t u expected given
  | around {front back before absorbed after : List Nat} {v : Nat} :
    (t.part v).variadic = true →
    List.Forall₂ (fun e g => t.partAccepts? lineage e u g = some true) front before →
    (∀ g ∈ absorbed, t.partAccepts? lineage v u g = some true) →
    List.Forall₂ (fun e g => t.partAccepts? lineage e u g = some true) back after →
    Splits lineage t u (front ++ v :: back) (before ++ absorbed ++ after)

/-- Lockstep around the first variadic part. -/
theorem lockstep?_around_iff (hfront : ∀ e ∈ front, (t.part e).variadic = false)
    (hv : (t.part v).variadic = true) :
    t.lockstep? lineage (front ++ v :: back) u gs = some true ↔
      ∃ before absorbed after, gs = before ++ absorbed ++ after ∧
        List.Forall₂ (fun e g => t.partAccepts? lineage e u g = some true) front before ∧
        (∀ g ∈ absorbed, t.partAccepts? lineage v u g = some true) ∧
        List.Forall₂ (fun e g => t.partAccepts? lineage e u g = some true) back after := by
  rw [lockstep?, lockstepBy_append_iff hfront]
  constructor
  · rintro ⟨before, rest, rfl, hbefore, hrest⟩
    obtain ⟨absorbed, after, rfl, habsorbed, hafter⟩ := (lockstepBy_variadic_iff hv).mp hrest
    exact ⟨before, absorbed, after, (List.append_assoc ..).symm, hbefore, habsorbed, hafter⟩
  · rintro ⟨before, absorbed, after, rfl, hbefore, habsorbed, hafter⟩
    have hrest := (lockstepBy_variadic_iff hv).mpr ⟨absorbed, after, rfl, habsorbed, hafter⟩
    exact ⟨before, absorbed ++ after, List.append_assoc .., hbefore, hrest⟩

/-- If at most one of the expected parts is variadic, no part before it is. -/
theorem not_variadic_before (hv : (t.part v).variadic = true)
    (hone : (front ++ v :: back).countP (fun e => (t.part e).variadic) ≤ 1) :
    ∀ e ∈ front, (t.part e).variadic = false := by
  rw [List.countP_append, List.countP_cons, if_pos hv] at hone
  have hnone : front.countP (fun e => (t.part e).variadic) = 0 := by omega
  intro e he
  exact Bool.eq_false_iff.mpr (List.countP_eq_zero.mp hnone e he)

/-- With at most one variadic part among those expected, lockstep says yes exactly if the given
    parts can be dealt out so that each is accepted.  Nothing is asked of the two types: their parts
    may stand in any way, also below themselves. -/
theorem lockstep_iff_splits (lineage : Lineage) (t u : TypeTree) (expected given : List Nat)
    (hone : expected.countP (fun e => (t.part e).variadic) ≤ 1) :
    t.lockstep? lineage expected u given = some true ↔ Splits lineage t u expected given := by
  constructor
  · intro h
    by_cases hnone : ∀ e ∈ expected, (t.part e).variadic = false
    · exact .single hnone ((lockstepBy_iff_forall₂ hnone).mp h)
    · push Not at hnone
      obtain ⟨v, hmem, hv⟩ := hnone
      obtain ⟨front, back, rfl⟩ := List.append_of_mem hmem
      have hvariadic : (t.part v).variadic = true := by simpa using hv
      obtain ⟨before, absorbed, after, rfl, hbefore, habsorbed, hafter⟩ :=
        (lockstep?_around_iff (not_variadic_before hvariadic hone) hvariadic).mp h
      exact .around hvariadic hbefore habsorbed hafter
  · intro h
    cases h with
    | single hnone hpairs => exact (lockstepBy_iff_forall₂ hnone).mpr hpairs
    | around hv hbefore habsorbed hafter =>
      exact (lockstep?_around_iff (not_variadic_before hv hone) hv).mpr
        ⟨_, _, _, rfl, hbefore, habsorbed, hafter⟩

/-- A function that takes a text, integers and a boolean. -/
def spread (integers : Nat) (variadic : Bool) : TypeTree :=
  ⟨[{ predefined := some (.composite .function) },
    { parent := some 0, parameters := true },
    { parent := some 1, predefined := some .string }] ++
    List.replicate integers
      { parent := some 1, predefined := some .integer, variadic := variadic } ++
    [{ parent := some 1, predefined := some .boolean }]⟩

/-- Arrays that stand below themselves. -/
def bottomless : TypeTree := ⟨[{ parent := some 0, array := true, variadic := true }]⟩

/-- Three arrays, one in the other. -/
def nestedArrays : TypeTree :=
  ⟨[{ array := true }, { parent := some 0, array := true }, { parent := some 1, array := true }]⟩

/-- Variadic integers take in three of them or none, but the boolean behind them is not left out.
    Arrays that stand below themselves take in arrays of any depth. -/
theorem lockstep_iff_splits_spread :
    (spread 1 true).parameters.countP (fun e => ((spread 1 true).part e).variadic) ≤ 1 ∧
      Splits ⟨fun _ => none, fun _ => none⟩ (spread 1 true) (spread 3 false)
        (spread 1 true).parameters
        (spread 3 false).parameters ∧
      Splits ⟨fun _ => none, fun _ => none⟩ (spread 1 true) (spread 0 false)
        (spread 1 true).parameters
        (spread 0 false).parameters ∧
      ¬Splits ⟨fun _ => none, fun _ => none⟩ (spread 1 true) (spread 3 false)
        (spread 1 true).parameters [2, 3] ∧
      Splits ⟨fun _ => none, fun _ => none⟩ bottomless nestedArrays [0] [0] := by
  have hone : (spread 1 true).parameters.countP (fun e => ((spread 1 true).part e).variadic) ≤
    1 := by decide
  refine ⟨hone, ?_, ?_, ?_, ?_⟩
  · exact (lockstep_iff_splits _ _ _ _ _ hone).mp (by decide +kernel)
  · exact (lockstep_iff_splits _ _ _ _ _ hone).mp (by decide +kernel)
  · intro h
    have hlockstep := (lockstep_iff_splits _ _ _ _ _ hone).mpr h
    revert hlockstep
    decide +kernel
  · exact (lockstep_iff_splits _ _ _ _ _ (by decide)).mp (by decide +kernel)

end TypeTree

end CompositeGraph
