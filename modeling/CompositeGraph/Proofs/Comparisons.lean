/-
  COMPARISONS: when comparing two types comes to an end, and what it then says.

  Whether a part accepts another is made out by questions about the parts below them.  They are
  asked in a certain order, and only as long as the answers leave the matter open; so there can be
  an answer although comparing all that is below would never end.  More levels never change an
  answer.  If there is one at all, there is one as many levels down as there are pairs of parts:
  further down a pair has come up again below itself.

  In a tree the questions are about parts further and further down, and all of them are answered.
  Whatever the types are, an answer is what acceptance between the two branches says, unfolded as
  far as the questions went.

    1. ANSWERS.      Questions about the items of a list, and about lists of parts.
    2. QUESTIONS.    `Asks`: what is asked about parts to compare two of them.
    3. LEVELS.       Answers stay, and come no later than there are pairs.
    4. TREES.        Between well-formed types there always is an answer.
    5. BRANCHES.     What an answer says.
    6. RE-ROOTING.   A subtree is compared as a type of its own is.
-/
import Mathlib.Data.Finset.Prod
import Mathlib.Tactic.Ring
import CompositeGraph.Proofs.Subtypes
import CompositeGraph.Proofs.Variadics

namespace CompositeGraph

/-! ## Answers -/

section Answers

variable {α : Type} {ask ask' : α → Option Bool} {p : α → Bool} {items : List α} {yes : Bool}

/-- One of them is so unless none is, and the questions stop at the same place. -/
theorem anyM_eq_not_allM (ask : α → Option Bool) (items : List α) :
    items.anyM ask = (items.allM fun item => (ask item).map (!·)).map (!·) := by
  induction items with
  | nil => rfl
  | cons item items ih =>
    rw [allM_cons, List.anyM]
    cases ask item with
    | none => rfl
    | some yes =>
      cases yes with
      | true => rfl
      | false => exact ih

/-- More answers do not change what comes out. -/
theorem allM_mono (h : ∀ item ∈ items, ∀ yes, ask item = some yes → ask' item = some yes)
    (hall : items.allM ask = some yes) : items.allM ask' = some yes := by
  induction items with
  | nil => exact hall
  | cons item items ih =>
    obtain ⟨hitem, hitems⟩ := List.forall_mem_cons.mp h
    rw [allM_cons] at hall ⊢
    obtain ⟨first, hfirst, hall⟩ := Option.bind_eq_some_iff.mp hall
    rw [hitem first hfirst, Option.bind_some]
    cases first with
    | true => exact ih hitems hall
    | false => exact hall

theorem anyM_mono (h : ∀ item ∈ items, ∀ yes, ask item = some yes → ask' item = some yes)
    (hany : items.anyM ask = some yes) : items.anyM ask' = some yes := by
  rw [anyM_eq_not_allM, Option.map_eq_some_iff] at hany ⊢
  obtain ⟨no, hall, rfl⟩ := hany
  refine ⟨no, allM_mono (fun item hitem answer hanswer => ?_) hall, rfl⟩
  obtain ⟨yes, hyes, rfl⟩ := Option.map_eq_some_iff.mp hanswer
  rw [h item hitem yes hyes, Option.map_some]

theorem allM_isSome (h : ∀ item ∈ items, (ask item).isSome) : (items.allM ask).isSome := by
  induction items with
  | nil => rfl
  | cons item items ih =>
    obtain ⟨hitem, hitems⟩ := List.forall_mem_cons.mp h
    obtain ⟨first, hfirst⟩ := Option.isSome_iff_exists.mp hitem
    rw [allM_cons, hfirst, Option.bind_some]
    cases first with
    | true => exact ih hitems
    | false => rfl

theorem anyM_isSome (h : ∀ item ∈ items, (ask item).isSome) : (items.anyM ask).isSome := by
  rw [anyM_eq_not_allM, Option.isSome_map]
  exact allM_isSome fun item hitem => by rw [Option.isSome_map]; exact h item hitem

/-- With right answers only, what comes out is right. -/
theorem all_eq_of_allM (h : ∀ item ∈ items, ∀ yes, ask item = some yes → p item = yes)
    (hall : items.allM ask = some yes) : items.all p = yes := by
  induction items with
  | nil => exact Option.some.inj hall
  | cons item items ih =>
    obtain ⟨hitem, hitems⟩ := List.forall_mem_cons.mp h
    rw [allM_cons] at hall
    obtain ⟨first, hfirst, hall⟩ := Option.bind_eq_some_iff.mp hall
    rw [List.all_cons, hitem first hfirst]
    cases first with
    | true => exact ih hitems hall
    | false => exact Option.some.inj hall

theorem any_eq_of_anyM (h : ∀ item ∈ items, ∀ yes, ask item = some yes → p item = yes)
    (hany : items.anyM ask = some yes) : items.any p = yes := by
  rw [anyM_eq_not_allM, Option.map_eq_some_iff] at hany
  obtain ⟨no, hall, rfl⟩ := hany
  rw [List.any_eq_not_all_not]
  refine congrArg (!·) (all_eq_of_allM (fun item hitem answer hanswer => ?_) hall)
  obtain ⟨yes, hyes, rfl⟩ := Option.map_eq_some_iff.mp hanswer
  rw [h item hitem yes hyes]

end Answers

namespace TypeTree

variable {lineage : Lineage} {ask ask' : Comparison} {t u : TypeTree} {e g : Nat}
  {es gs : List Nat} {yes : Bool}

theorem lockstepBy_mono
    (h : ∀ e ∈ es, ∀ g ∈ gs, ∀ yes, ask t e u g = some yes → ask' t e u g = some yes)
    (hlockstep : lockstepBy ask t u es gs = some yes) : lockstepBy ask' t u es gs = some yes := by
  induction es generalizing gs with
  | nil => exact hlockstep
  | cons e es ih =>
    obtain ⟨he, hes⟩ := List.forall_mem_cons.mp h
    cases hv : (t.part e).variadic with
    | true =>
      rw [lockstepBy_variadic_eq hv] at hlockstep ⊢
      split_ifs at hlockstep ⊢
      · obtain ⟨taken, htaken, hrest⟩ := Option.bind_eq_some_iff.mp hlockstep
        have htaken' := allM_mono (fun g hg => he g (List.mem_of_mem_take hg)) htaken
        refine Option.bind_eq_some_iff.mpr ⟨taken, htaken', ?_⟩
        cases taken with
        | true => exact ih (fun e' he' g hg => hes e' he' g (List.mem_of_mem_drop hg)) hrest
        | false => exact hrest
      · exact hlockstep
    | false =>
      cases gs with
      | nil => rwa [lockstepBy_single_nil hv] at hlockstep ⊢
      | cons g gs =>
        rw [lockstepBy_single_eq hv] at hlockstep ⊢
        obtain ⟨first, hfirst, hrest⟩ := Option.bind_eq_some_iff.mp hlockstep
        refine Option.bind_eq_some_iff.mpr ⟨first, he g List.mem_cons_self first hfirst, ?_⟩
        cases first with
        | true => exact ih (fun e' he' g' hg' => hes e' he' g' (List.mem_cons_of_mem _ hg')) hrest
        | false => exact hrest

theorem lockstepBy_isSome (h : ∀ e ∈ es, ∀ g ∈ gs, (ask t e u g).isSome) :
    (lockstepBy ask t u es gs).isSome := by
  induction es generalizing gs with
  | nil => rfl
  | cons e es ih =>
    obtain ⟨he, hes⟩ := List.forall_mem_cons.mp h
    cases hv : (t.part e).variadic with
    | true =>
      rw [lockstepBy_variadic_eq hv]
      split
      · obtain ⟨taken, htaken⟩ := Option.isSome_iff_exists.mp
          (allM_isSome fun g hg => he g (List.mem_of_mem_take (i := gs.length - es.length) hg))
        rw [htaken, Option.bind_some]
        cases taken with
        | true => exact ih fun e' he' g hg => hes e' he' g (List.mem_of_mem_drop hg)
        | false => rfl
      · rfl
    | false =>
      cases gs with
      | nil => rw [lockstepBy_single_nil hv, Option.isSome_some]
      | cons g gs =>
        obtain ⟨first, hfirst⟩ := Option.isSome_iff_exists.mp (he g List.mem_cons_self)
        rw [lockstepBy_single_eq hv, hfirst, Option.bind_some]
        cases first with
        | true => exact ih fun e' he' g' hg' => hes e' he' g' (List.mem_cons_of_mem _ hg')
        | false => rfl

/-- With right answers only, lists of parts are compared as the branches they are unfolded into. -/
theorem lockstep_eq_of_lockstepBy {expected given : Nat → Branch}
    (hpart : ∀ e, (expected e).part = t.part e) (h : ∀ e ∈ es, ∀ g ∈ gs, ∀ yes,
      ask t e u g = some yes → (expected e).accepts lineage (given g) = yes)
    (hlockstep : lockstepBy ask t u es gs = some yes) :
    Branch.lockstep lineage (es.map expected) (gs.map given) = yes := by
  induction es generalizing gs with
  | nil =>
    rw [List.map_nil, Branch.lockstep, List.isEmpty_map]
    exact Option.some.inj hlockstep
  | cons e es ih =>
    obtain ⟨he, hes⟩ := List.forall_mem_cons.mp h
    cases hv : (t.part e).variadic with
    | true =>
      rw [lockstepBy_variadic_eq hv] at hlockstep
      rw [List.map_cons, Branch.lockstep_cons_of_variadic (by rw [hpart, hv]),
        List.length_map, List.length_map, ← List.map_take, ← List.map_drop, List.all_map]
      split at hlockstep
      · rename_i henough
        obtain ⟨taken, htaken, hrest⟩ := Option.bind_eq_some_iff.mp hlockstep
        have hall := all_eq_of_allM (p := Branch.accepts lineage (expected e) ∘ given)
          (fun g hg => he g (List.mem_of_mem_take hg)) htaken
        rw [decide_eq_true henough, hall, Bool.true_and]
        cases taken with
        | true => exact ih (fun e' he' g hg => hes e' he' g (List.mem_of_mem_drop hg)) hrest
        | false => exact Option.some.inj hrest
      · rename_i hshort
        rw [decide_eq_false hshort, Bool.false_and, Bool.false_and]
        exact Option.some.inj hlockstep
    | false =>
      cases gs with
      | nil =>
        rw [lockstepBy_single_nil hv] at hlockstep
        rw [List.map_cons, List.map_nil, Branch.lockstep, hpart, hv]
        exact Option.some.inj hlockstep
      | cons g gs =>
        rw [lockstepBy_single_eq hv] at hlockstep
        obtain ⟨first, hfirst, hrest⟩ := Option.bind_eq_some_iff.mp hlockstep
        rw [List.map_cons, List.map_cons, Branch.lockstep_cons_of_not_variadic (by rw [hpart, hv]),
          he g List.mem_cons_self first hfirst]
        cases first with
        | true => exact ih (fun e' he' g' hg' => hes e' he' g' (List.mem_cons_of_mem _ hg')) hrest
        | false => exact Option.some.inj hrest

/-! ## Questions -/

/-- What may be asked about parts to find out whether the part `e` of `t` accepts the part `g` of
    `u`. -/
inductive Asks (t : TypeTree) (e : Nat) (u : TypeTree) (g : Nat) :
    TypeTree → Nat → TypeTree → Nat → Prop where
  | given {d : Nat} : d ∈ u.children g → Asks t e u g t e u d
  | expected {c : Nat} : c ∈ t.children e → Asks t e u g t c u g
  | members {c d : Nat} : c ∈ t.children e → d ∈ u.children g → Asks t e u g t c u d
  /-- Functions are compared as types of their own. -/
  | signatures {t' u' : TypeTree} {i j c d : Nat} :
    t.subtype? e = some t' → u.subtype? g = some u' → c ∈ t'.children i → d ∈ u'.children j →
    Asks t e u g t' c u' d

theorem mem_children_of_flagged {type : TypeTree} {flag : TypePart → Bool} {c : Nat}
    (hc : c ∈ type.flagged flag) : ∃ i, c ∈ type.children i := by
  rw [flagged] at hc
  split at hc
  · exact ⟨_, hc⟩
  · cases hc

theorem mem_children_of_return? {type : TypeTree} {c : Nat} (hc : type.return? = some c) :
    c ∈ type.children 0 :=
  List.mem_of_find?_eq_some hc

theorem signaturesBy_mono
    (h : ∀ i, ∀ c ∈ t.children i, ∀ j, ∀ d ∈ u.children j, ∀ yes,
      ask t c u d = some yes → ask' t c u d = some yes)
    (hsignatures : signaturesBy ask t u = some yes) : signaturesBy ask' t u = some yes := by
  obtain ⟨first, hfirst, hrest⟩ := Option.bind_eq_some_iff.mp hsignatures
  refine Option.bind_eq_some_iff.mpr ⟨first, lockstepBy_mono (fun c hc d hd => ?_) hfirst, ?_⟩
  · obtain ⟨i, hc⟩ := mem_children_of_flagged hc
    obtain ⟨j, hd⟩ := mem_children_of_flagged hd
    exact h i c hc j d hd
  · cases first with
    | false => exact hrest
    | true =>
      simp only [if_true] at hrest ⊢
      split at hrest
      · rename_i c d hc hd
        exact h 0 c (mem_children_of_return? hc) 0 d (mem_children_of_return? hd) yes hrest
      · exact hrest

theorem signaturesBy_isSome
    (h : ∀ i, ∀ c ∈ t.children i, ∀ j, ∀ d ∈ u.children j, (ask t c u d).isSome) :
    (signaturesBy ask t u).isSome := by
  have hparameters : (lockstepBy ask t u t.parameters u.parameters).isSome := by
    refine lockstepBy_isSome fun c hc d hd => ?_
    obtain ⟨i, hc⟩ := mem_children_of_flagged hc
    obtain ⟨j, hd⟩ := mem_children_of_flagged hd
    exact h i c hc j d hd
  obtain ⟨first, hfirst⟩ := Option.isSome_iff_exists.mp hparameters
  simp only [signaturesBy, hfirst, Option.bind_eq_bind, Option.bind_some]
  cases first with
  | false => rfl
  | true =>
    simp only [if_true]
    split
    · rename_i c d hc hd
      exact h 0 c (mem_children_of_return? hc) 0 d (mem_children_of_return? hd)
    · rfl

/-- If what is asked keeps its answers, so does the comparison. -/
theorem acceptsBy_mono
    (h : ∀ {t' e' u' g'}, Asks t e u g t' e' u' g' → ∀ yes,
      ask t' e' u' g' = some yes → ask' t' e' u' g' = some yes)
    (haccepts : acceptsBy lineage ask t e u g = some yes) :
      acceptsBy lineage ask' t e u g = some yes := by
  unfold acceptsBy at haccepts ⊢
  cases hinquiry : (t.part e).inquiry lineage (u.part g) <;> simp only [hinquiry] at haccepts ⊢
  case settled => exact haccepts
  case eachGiven => exact allM_mono (fun d hd => h (.given hd)) haccepts
  case oneExpected => exact anyM_mono (fun c hc => h (.expected hc)) haccepts
  case eachExpected => exact allM_mono (fun c hc => h (.expected hc)) haccepts
  case signatures =>
    obtain ⟨t', ht', haccepts⟩ := Option.bind_eq_some_iff.mp haccepts
    obtain ⟨u', hu', haccepts⟩ := Option.bind_eq_some_iff.mp haccepts
    refine Option.bind_eq_some_iff.mpr ⟨t', ht', Option.bind_eq_some_iff.mpr ⟨u', hu', ?_⟩⟩
    exact signaturesBy_mono (fun i c hc j d hd => h (.signatures ht' hu' hc hd)) haccepts
  case members => exact lockstepBy_mono (fun c hc d hd => h (.members hc hd)) haccepts

/-- If all that is asked has an answer, and functions can be copied, there is one. -/
theorem acceptsBy_isSome (ht : (t.subtype? e).isSome) (hu : (u.subtype? g).isSome)
    (h : ∀ {t' e' u' g'}, Asks t e u g t' e' u' g' → (ask t' e' u' g').isSome) :
    (acceptsBy lineage ask t e u g).isSome := by
  obtain ⟨t', ht'⟩ := Option.isSome_iff_exists.mp ht
  obtain ⟨u', hu'⟩ := Option.isSome_iff_exists.mp hu
  unfold acceptsBy
  cases (t.part e).inquiry lineage (u.part g)
  case settled => rfl
  case eachGiven => exact allM_isSome fun d hd => h (.given hd)
  case oneExpected => exact anyM_isSome fun c hc => h (.expected hc)
  case eachExpected => exact allM_isSome fun c hc => h (.expected hc)
  case signatures =>
    simp only [ht', hu', Option.bind_eq_bind, Option.bind_some]
    exact signaturesBy_isSome fun i c hc j d hd => h (.signatures ht' hu' hc hd)
  case members => exact lockstepBy_isSome fun c hc d hd => h (.members hc hd)

/-! ## Levels -/

variable {m n : Nat}

theorem acceptsWithin_succ (h : acceptsWithin lineage n t e u g = some yes) :
    acceptsWithin lineage (n + 1) t e u g = some yes := by
  induction n generalizing t e u g yes with
  | zero => cases h
  | succ n ih => exact acceptsBy_mono (fun _ _ => ih) h

/-- An answer stays, however many more levels there are. -/
theorem acceptsWithin_mono (hle : m ≤ n) (h : acceptsWithin lineage m t e u g = some yes) :
    acceptsWithin lineage n t e u g = some yes := by
  induction hle with
  | refl => exact h
  | step _ ih => exact acceptsWithin_succ ih

/-- At whatever level there is an answer, it is the same. -/
theorem acceptsWithin_of_isSome (hsome : (acceptsWithin lineage m t e u g).isSome)
    (h : acceptsWithin lineage n t e u g = some yes) :
      acceptsWithin lineage m t e u g = some yes := by
  obtain ⟨yes', hyes'⟩ := Option.isSome_iff_exists.mp hsome
  rcases Nat.le_total m n with hle | hle
  · rw [hyes', ← h, acceptsWithin_mono hle hyes']
  · exact acceptsWithin_mono hle h

/-- Where the types are trees, each question is about less of them. -/
theorem WellFormed.acceptsWithin_isSome (ht : t.WellFormed) (hu : u.WellFormed)
    (lineage : Lineage) (e g : Nat)
    (hlevels : (t.size - e) + (u.size - g) < n) : (acceptsWithin lineage n t e u g).isSome := by
  induction n generalizing t e u g with
  | zero => cases hlevels
  | succ n ih =>
    have hfurther : ∀ {type : TypeTree} {i c : Nat}, type.WellFormed → c ∈ type.children i →
        type.size - c < type.size - i := by
      intro type i c h hc
      have hlt := h.lt_of_mem_children hc
      have hsize := (mem_children.mp hc).1
      omega
    refine acceptsBy_isSome (by rw [ht.subtype?_eq]; rfl)
      (by rw [hu.subtype?_eq]; rfl) fun hasks => ?_
    cases hasks with
    | given hd =>
      have := hfurther hu hd
      exact ih ht hu _ _ (by omega)
    | expected hc =>
      have := hfurther ht hc
      exact ih ht hu _ _ (by omega)
    | members hc hd =>
      have := hfurther ht hc
      have := hfurther hu hd
      exact ih ht hu _ _ (by omega)
    | @signatures t' u' _ _ _ _ ht' hu' hc hd =>
      have := hfurther (wellFormed_of_subtype? ht') hc
      have := hfurther (wellFormed_of_subtype? hu') hd
      have := ht.size_subtype?_le ht'
      have := hu.size_subtype?_le hu'
      exact ih (wellFormed_of_subtype? ht') (wellFormed_of_subtype? hu') _ _ (by omega)

/-- The pairs of parts that come up when two are compared, functions aside. -/
def pairs (t : TypeTree) (e : Nat) (u : TypeTree) (g : Nat) : Finset (Nat × Nat) :=
  insert e (Finset.range t.size) ×ˢ insert g (Finset.range u.size)

theorem card_pairs_le (t : TypeTree) (e : Nat) (u : TypeTree) (g : Nat) :
    (pairs t e u g).card ≤ (t.size + 1) * (u.size + 1) := by
  have hinsert : ∀ k n, (insert k (Finset.range n)).card ≤ n + 1 := by
    intro k n
    simpa using Finset.card_insert_le k (Finset.range n)
  rw [pairs, Finset.card_product]
  exact Nat.mul_le_mul (hinsert ..) (hinsert ..)

/-- When one level more has brought no new answer about these pairs, neither does the next.
    Functions are compared as types of their own; those are trees, and all that is asked about them
    has been answered before. -/
theorem isSome_of_pairs_stable {levels i j : Nat} (hlevels : t.size + u.size < levels)
    (hback : ∀ c d, (c, d) ∈ pairs t e u g → (acceptsWithin lineage (levels + 1) t c u d).isSome →
      (acceptsWithin lineage levels t c u d).isSome)
    (hpair : (i, j) ∈ pairs t e u g) (h : (acceptsWithin lineage (levels + 2) t i u j).isSome) :
    (acceptsWithin lineage (levels + 1) t i u j).isSome := by
  obtain ⟨hi, hj⟩ := Finset.mem_product.mp hpair
  obtain ⟨yes, hyes⟩ := Option.isSome_iff_exists.mp h
  have hchild : ∀ {type : TypeTree} {k i c : Nat},
    c ∈ type.children i → c ∈ insert k (Finset.range type.size) :=
    fun hc => Finset.mem_insert_of_mem (Finset.mem_range.mpr (mem_children.mp hc).1)
  have hkeep : ∀ {c d}, (c, d) ∈ pairs t e u g → ∀ yes,
    acceptsWithin lineage (levels + 1) t c u d = some yes →
      acceptsWithin lineage levels t c u d = some yes :=
    fun hmem yes h =>
      acceptsWithin_of_isSome (hback _ _ hmem (Option.isSome_iff_exists.mpr ⟨yes, h⟩)) h
  refine Option.isSome_iff_exists.mpr ⟨yes, acceptsBy_mono (fun hasks yes h => ?_) hyes⟩
  cases hasks with
  | given hd => exact hkeep (Finset.mk_mem_product hi (hchild hd)) yes h
  | expected hc => exact hkeep (Finset.mk_mem_product (hchild hc) hj) yes h
  | members hc hd => exact hkeep (Finset.mk_mem_product (hchild hc) (hchild hd)) yes h
  | signatures ht' hu' _ _ =>
    have hsize := size_subtype?_le ht'
    have hsize' := size_subtype?_le hu'
    refine acceptsWithin_of_isSome ?_ h
    exact (wellFormed_of_subtype? ht').acceptsWithin_isSome (wellFormed_of_subtype? hu')
      lineage _ _ (by omega)

/-- If there ever is an answer, there is one as many levels down as there are pairs of parts. -/
theorem partAccepts?_eq_some_iff :
    t.partAccepts? lineage e u g = some yes ↔ ∃ levels,
      acceptsWithin lineage levels t e u g = some yes := by
  refine ⟨fun h => ⟨_, h⟩, fun ⟨levels, h⟩ => ?_⟩
  have hmore : ∀ n (pair : Nat × Nat),
      (acceptsWithin lineage (t.size + u.size + 1 + n) t pair.1 u pair.2).isSome →
      (acceptsWithin lineage (t.size + u.size + 1 + (n + 1)) t pair.1 u pair.2).isSome := by
    intro n pair hsome
    obtain ⟨yes, hyes⟩ := Option.isSome_iff_exists.mp hsome
    exact Option.isSome_iff_exists.mpr ⟨yes, acceptsWithin_succ hyes⟩
  have hlevels : ∀ n, t.size + u.size < t.size + u.size + 1 + n := fun n => by omega
  have hmem : (e, g) ∈ pairs t e u g :=
    Finset.mk_mem_product (Finset.mem_insert_self ..) (Finset.mem_insert_self ..)
  have hlast := holds_at_card hmore
    (fun n hback pair => isSome_of_pairs_stable (hlevels n) fun c d => hback (c, d)) hmem
    (Option.isSome_iff_exists.mpr ⟨yes, acceptsWithin_mono (Nat.le_add_left levels _) h⟩)
  have hcard := card_pairs_le t e u g
  have hpairs : (t.size + 2) * (u.size + 2) = (t.size + 1) * (u.size + 1) +
    (t.size + u.size + 3) := by ring
  exact acceptsWithin_mono (by omega) (acceptsWithin_of_isSome hlast h)

/-- There is no answer exactly if no number of levels brings one. -/
theorem partAccepts?_eq_none_iff :
    t.partAccepts? lineage e u g = none ↔ ∀ levels,
      acceptsWithin lineage levels t e u g = none := by
  rw [Option.eq_none_iff_forall_ne_some]
  simp only [ne_eq, partAccepts?_eq_some_iff, not_exists, Option.eq_none_iff_forall_ne_some]
  exact forall_comm

/-! ## Branches -/

theorem predefined_of_signatures {expected given : TypePart}
    (h : expected.inquiry lineage given = .signatures) :
    expected.predefined = some (.composite .function) ∧
      given.predefined = some (.composite .function) := by
  unfold TypePart.inquiry at h
  split_ifs at h with _ _ _ _ hfunction hagree
  simp only [TypePart.functionsAgree, Bool.and_eq_true, beq_iff_eq] at hfunction hagree
  exact ⟨hfunction, hagree.1.1.1.1⟩

/-- With right answers only, functions are compared by what stands in the two subtrees. -/
theorem signatures_of_signaturesBy (ht : t.EndsWithin t.size e) (he : e < t.size) (hm : t.size ≤ m)
    (hu : u.EndsWithin u.size g) (hg : g < u.size) (hn : u.size ≤ n)
    (h : ∀ c d yes, ask (t.branch e).flatten c (u.branch g).flatten d = some yes →
      ((t.branch e).flatten.branchTo m c).accepts lineage ((u.branch g).flatten.branchTo n d) = yes)
    (hsignatures : signaturesBy ask (t.branch e).flatten (u.branch g).flatten = some yes) :
    (Branch.lockstep lineage (t.branch e).parameters (u.branch g).parameters &&
      Branch.returnAccepts lineage (t.branch e).children
        ((u.branch g).children.find? Branch.isReturn)) = yes := by
  obtain ⟨first, hfirst, hrest⟩ := Option.bind_eq_some_iff.mp hsignatures
  have hparameters : Branch.lockstep lineage (t.branch e).parameters (u.branch g).parameters =
    first := by
    rw [← lockstep_eq_of_lockstepBy (part_branchTo _ m) (fun c _ d _ => h c d) hfirst]
    refine Branch.lockstep_eq_of_detached_eq ?_ ?_
    · rw [List.map_map]
      exact (ht.flagged_flatten hm (·.parameters) fun _ => rfl).symm
    · rw [List.map_map]
      exact (hu.flagged_flatten hn (·.parameters) fun _ => rfl).symm
  rw [hparameters]
  cases first with
  | false => exact Option.some.inj hrest
  | true =>
    have hreturn := ht.return?_flatten he hm
    have hreturn' := hu.return?_flatten hg hn
    simp only [if_true] at hrest
    rw [Bool.true_and]
    split at hrest
    · rename_i c d hc hd
      rw [hc, Option.map_some] at hreturn
      rw [hd, Option.map_some] at hreturn'
      obtain ⟨b, hb, hdetached⟩ := Option.map_eq_some_iff.mp hreturn.symm
      obtain ⟨b', hb', hdetached'⟩ := Option.map_eq_some_iff.mp hreturn'.symm
      rw [hb', Branch.returnAccepts_some hb, Branch.accepts_eq_of_detached_eq hdetached hdetached']
      exact h c d yes hrest
    · rename_i hnone
      rw [← Option.some.inj hrest]
      refine Branch.returnAccepts_none _ ?_
      cases hc : (t.branch e).flatten.return? with
      | none =>
        rw [hc] at hreturn
        exact .inl (Option.map_eq_none_iff.mp hreturn.symm)
      | some c =>
        cases hd : (u.branch g).flatten.return? with
        | none =>
          rw [hd] at hreturn'
          exact .inr (Option.map_eq_none_iff.mp hreturn'.symm)
        | some d => exact (hnone c d hc hd).elim

/-- An answer is what acceptance says between the branches, unfolded as far as the
    questions went. -/
theorem accepts_branchTo_of_acceptsWithin {levels : Nat}
    (h : acceptsWithin lineage levels t e u g = some yes)
    (hm : levels + t.size ≤ m) (hn : levels + u.size ≤ n) :
    (t.branchTo m e).accepts lineage (u.branchTo n g) = yes := by
  induction levels generalizing t e u g yes m n with
  | zero => cases h
  | succ levels ih =>
    obtain ⟨m, rfl⟩ :=
      Nat.exists_eq_add_of_le' (Nat.le_trans (by omega : 1 ≤ levels + 1 + t.size) hm)
    obtain ⟨n, rfl⟩ :=
      Nat.exists_eq_add_of_le' (Nat.le_trans (by omega : 1 ≤ levels + 1 + u.size) hn)
    have hdown : ∀ {type : TypeTree} {k i : Nat}, (type.branchTo (k + 1) i).children =
        (type.children i).map (type.branchTo k) := rfl
    rw [Branch.accepts_eq, part_branchTo, part_branchTo]
    unfold acceptsWithin acceptsBy at h
    cases hinquiry : (t.part e).inquiry lineage (u.part g) <;> simp only [hinquiry] at h ⊢
    case settled => exact Option.some.inj h
    case eachGiven =>
      rw [hdown, List.all_map]
      exact all_eq_of_allM (fun d _ yes hyes => ih hyes (by omega) (by omega)) h
    case oneExpected =>
      rw [hdown, List.any_map]
      exact any_eq_of_anyM (fun c _ yes hyes => ih hyes (by omega) (by omega)) h
    case eachExpected =>
      rw [hdown, List.all_map]
      exact all_eq_of_allM (fun c _ yes hyes => ih hyes (by omega) (by omega)) h
    case members =>
      rw [hdown, hdown]
      exact lockstep_eq_of_lockstepBy (part_branchTo t m)
        (fun c _ d _ yes hyes => ih hyes (by omega) (by omega)) h
    case signatures =>
      obtain ⟨hfunction, hfunction'⟩ := predefined_of_signatures hinquiry
      have he := lt_size_of_predefined hfunction
      have hg := lt_size_of_predefined hfunction'
      obtain ⟨t', ht', h⟩ := Option.bind_eq_some_iff.mp h
      obtain ⟨u', hu', h⟩ := Option.bind_eq_some_iff.mp h
      have hsize := size_subtype?_le ht'
      have hsize' := size_subtype?_le hu'
      obtain ⟨hends, rfl⟩ := (subtype?_eq_some_iff he).mp ht'
      obtain ⟨hends', rfl⟩ := (subtype?_eq_some_iff hg).mp hu'
      have hdepth : t.size ≤ m := by omega
      have hdepth' : u.size ≤ n := by omega
      rw [hends.branchTo_eq (Nat.le_succ_of_le hdepth),
        hends'.branchTo_eq (Nat.le_succ_of_le hdepth')]
      exact signatures_of_signaturesBy hends he hdepth hends' hg hdepth'
        (fun c d yes hyes => ih hyes (by omega) (by omega)) h

/-- Between trees there is an answer, and it is what acceptance says between the branches. -/
theorem WellFormed.partAccepts?_eq (ht : t.WellFormed) (hu : u.WellFormed)
    (lineage : Lineage) (e g : Nat) :
    t.partAccepts? lineage e u g = some ((t.branch e).accepts lineage (u.branch g)) := by
  obtain ⟨yes, hyes⟩ := Option.isSome_iff_exists.mp
    (ht.acceptsWithin_isSome hu lineage e g (Nat.lt_succ_self _))
  rw [partAccepts?_eq_some_iff.mpr ⟨_, hyes⟩,
    ← accepts_branchTo_of_acceptsWithin hyes (Nat.le_refl _) (Nat.le_refl _),
    ht.branchTo_eq_branch (Nat.le_add_left ..), hu.branchTo_eq_branch (Nat.le_add_left ..)]

/-! ## Re-rooting -/

/-- Whether something is accepted is decided by the subtree alone: types of their own made of the
    two subtrees answer as these do, and there is an answer.  Such a type can be made of any subtree
    and is well formed, it is the subtree part by part, the parameters and the return type that are
    found in it by index are those of the subtree, and made into a type of its own
    again it is the same. -/
theorem partAccepts_subtype {t u : TypeTree} (ht : t.WellFormed) (hu : u.WellFormed)
    {e p : Nat} (he : e < t.size) (hp : p < u.size) (lineage : Lineage) :
    (∃ yes, t.partAccepts? lineage e u p = some yes ∧
        (t.subtype e).partAccepts? lineage 0 (u.subtype p) 0 = some yes) ∧
      t.subtype? e = some (t.subtype e) ∧ (t.subtype e).WellFormed ∧
      (∃ indices, t.IsCopy e indices (t.subtype e)) ∧
      (t.subtype e).parameters.map (fun k => ((t.subtype e).branch k).detached) =
        (t.branch e).parameters.map Branch.detached ∧
      (t.subtype e).return?.map (fun k => ((t.subtype e).branch k).detached) =
        ((t.branch e).children.find? Branch.isReturn).map Branch.detached ∧
      (t.subtype e).subtype 0 = t.subtype e := by
  have hends : t.EndsWithin t.size e := ht.endsWithin (by omega)
  have hsubtype := ht.subtype?_eq_subtype e
  have hbranch : (t.subtype e).branch = (t.subtype e).branchTo t.size :=
    funext fun k => ((ht.subtype e).branchTo_eq_branch (size_subtype?_le hsubtype) k).symm
  refine ⟨⟨_, ht.partAccepts?_eq hu lineage e p, ?_⟩, hsubtype, ht.subtype e,
    ⟨_, ht.isCopy_subtype he⟩, ?_, ?_, ht.subtype_subtype_zero he⟩
  · rw [(ht.subtype e).partAccepts?_eq (hu.subtype p)]
    exact congrArg some
      (Branch.accepts_eq_of_detached_eq (ht.detached_branch_subtype he)
        (hu.detached_branch_subtype hp))
  · rw [hbranch, ht.subtype_eq he]
    exact hends.flagged_flatten (Nat.le_refl _) (·.parameters) fun _ => rfl
  · rw [hbranch, ht.subtype_eq he]
    exact hends.return?_flatten he (Nat.le_refl _)

/-- A function that takes a function and a text.  The parts are not in the order in which they are
    copied: the inner function has its own parts at the end, after the return type of
    the outer one. -/
def visiting : TypeTree :=
  ⟨[{ predefined := some (.composite .function), throws := some .present },
    { parent := some 0, parameters := true },
    { parent := some 1, predefined := some (.composite .function) },
    { parent := some 1, predefined := some .string },
    { parent := some 0, predefined := some .boolean, nillable := true },
    { parent := some 2, parameters := true },
    { parent := some 5, predefined := some .float },
    { parent := some 2, predefined := some .integer }]⟩

theorem partAccepts_subtype_visiting :
    visiting.WellFormed ∧ 2 < visiting.size ∧
      (visiting.subtype 0).parts.map (·.parent) ≠ visiting.parts.map (·.parent) ∧
      (∃ yes, visiting.partAccepts? ⟨fun _ => none, fun _ => none⟩ 2 visiting 2 = some yes ∧
        (visiting.subtype 2).partAccepts? ⟨fun _ => none, fun _ => none⟩ 0 (visiting.subtype 2) 0 =
          some yes) ∧
      visiting.subtype? 2 = some (visiting.subtype 2) ∧ (visiting.subtype 2).WellFormed ∧
      (∃ indices, visiting.IsCopy 2 indices (visiting.subtype 2)) ∧
      (visiting.subtype 2).parameters.map (fun k => ((visiting.subtype 2).branch k).detached) =
        (visiting.branch 2).parameters.map Branch.detached ∧
      (visiting.subtype 2).return?.map (fun k => ((visiting.subtype 2).branch k).detached) =
        ((visiting.branch 2).children.find? Branch.isReturn).map Branch.detached ∧
      (visiting.subtype 2).subtype 0 = visiting.subtype 2 :=
  ⟨by decide, by decide, by decide +kernel,
    partAccepts_subtype (by decide) (by decide) (by decide) (by decide)
    ⟨fun _ => none, fun _ => none⟩⟩

end TypeTree

end CompositeGraph
