/-
  SUBTYPES: a subtree of a type, made into a type of its own.

  A type is a flat list of parts, each with the index of the one it stands under.  A subtype is
  copied out of it a part before its children, so its parts have other indices, and stand in another
  order, than in the type.  What reads a type looks for the first part with a flag, or goes through
  children in order.  It answers the same for the copy, because a copy differs from the subtree in
  parent links alone.

  Nothing keeps a part from standing below itself, and copying such a part never ends.  There is a
  copy exactly of what goes down a number of levels and no further; as many as the type has parts
  are enough, since a path down that is longer than that has come back to where it was.

    1. DEPTH.         `EndsWithin`: below a part there are no more than so many levels.
    2. WELL-FORMED.   The first part is above all others, and each of them stands
                      under an earlier one.
    3. COPIES.        What is copied, part by part, with the index each part comes from.
    4. SUBTYPES.      `IsCopy`: the parts of a subtree, each once, and their children in order.
    5. READING.       What is unfolded or read in a subtype is what is unfolded
                      or read in the subtree.
-/
import Mathlib.Data.Finset.Card
import Mathlib.Logic.Relation
import CompositeGraph.Proofs.Branches
import CompositeGraph.Proofs.Parts

namespace CompositeGraph

/-! ## Depth -/

/-- What comes to hold of more and more of finitely many things, until a step brings nothing new,
    holds after as many steps as there are things of all that it ever comes to hold of. -/
theorem holds_at_card {α : Type} {things : Finset α} {holds : Nat → α → Prop}
    (hmore : ∀ n a, holds n a → holds (n + 1) a)
    (hstop : ∀ n, (∀ a ∈ things, holds (n + 1) a → holds n a) →
      ∀ a ∈ things, holds (n + 2) a → holds (n + 1) a)
    {n : Nat} {a : α} (ha : a ∈ things) (h : holds n a) : holds things.card a := by
  classical
  let those (n : Nat) : Finset α := things.filter (holds n)
  have hmem : ∀ {n a}, a ∈ those n ↔ a ∈ things ∧ holds n a := Finset.mem_filter
  have hsub : ∀ n, those n ⊆ those (n + 1) :=
    fun n x hx => hmem.mpr ⟨(hmem.mp hx).1, hmore n x (hmem.mp hx).2⟩
  have hmono : Monotone those := monotone_nat_of_le_succ hsub
  have hstable : ∀ n, (those n).card = (those (n + 1)).card →
      (those (n + 1)).card = (those (n + 2)).card := by
    intro n hcard
    have hsame := Finset.eq_of_subset_of_card_le (hsub n) (Nat.le_of_eq hcard.symm)
    have hback := hstop n fun x hx hholds => (hmem.mp (hsame ▸ hmem.mpr ⟨hx, hholds⟩)).2
    refine Nat.le_antisymm (Finset.card_le_card (hsub _)) (Finset.card_le_card fun x hx => ?_)
    exact hmem.mpr ⟨(hmem.mp hx).1, hback x (hmem.mp hx).1 (hmem.mp hx).2⟩
  rcases Nat.le_total n things.card with hle | hge
  · exact (hmem.mp (hmono hle (hmem.mpr ⟨ha, h⟩))).2
  · have hcard := Nat.stabilises_of_monotone (fun _ _ hle => Finset.card_le_card (hmono hle))
      (fun n => Finset.card_filter_le things (holds n)) hstable hge
    have hsame := Finset.eq_of_subset_of_card_le (hmono hge) (Nat.le_of_eq hcard)
    exact (hmem.mp (hsame ▸ hmem.mpr ⟨ha, h⟩)).2

namespace TypeTree

variable {type : TypeTree} {i j : Nat}

/-- Unfolds the part at an index, at most `depth` levels below it. -/
def branchTo (type : TypeTree) : (depth : Nat) → Nat → Branch
  | 0, index => .node (type.part index) []
  | depth + 1, index => .node (type.part index) ((type.children index).map (type.branchTo depth))

/-- Unfolds the part at an index.  No path down a tree is longer than the number of its parts. -/
def branch (type : TypeTree) (index : Nat) : Branch := type.branchTo type.size index

theorem part_branchTo (type : TypeTree) (depth i : Nat) :
    (type.branchTo depth i).part = type.part i := by
  cases depth <;> rfl

/-- Below the part at an index there are no more than so many levels. -/
def EndsWithin (type : TypeTree) : (levels : Nat) → Nat → Prop
  | 0, i => type.children i = []
  | levels + 1, i => ∀ c ∈ type.children i, type.EndsWithin levels c

namespace EndsWithin

variable {m n : Nat}

theorem succ (h : type.EndsWithin n i) : type.EndsWithin (n + 1) i := by
  induction n generalizing i with
  | zero =>
    intro c hc
    rw [show type.children i = [] from h] at hc
    cases hc
  | succ n ih => exact fun c hc => ih (h c hc)

theorem mono (h : type.EndsWithin m i) (hle : m ≤ n) : type.EndsWithin n i := by
  induction hle with
  | refl => exact h
  | step _ ih => exact ih.succ

/-- Unfolding further down than that finds nothing more. -/
theorem branchTo_eq (h : type.EndsWithin m i) (hle : m ≤ n) :
    type.branchTo n i = type.branchTo m i := by
  induction m generalizing i n with
  | zero =>
    have hnone : type.children i = [] := h
    cases n with
    | zero => rfl
    | succ n => rw [branchTo, branchTo, hnone, List.map_nil]
  | succ m ih =>
    obtain ⟨n, rfl⟩ := Nat.exists_eq_add_of_le' (Nat.lt_of_lt_of_le (Nat.succ_pos m) hle)
    rw [branchTo, branchTo]
    congr 1
    exact List.map_congr_left fun c hc => ih (h c hc) (Nat.le_of_succ_le_succ hle)

/-- If there is a last level at all, it is not further down than there are parts. -/
theorem at_size (h : type.EndsWithin n i) (hi : i < type.size) : type.EndsWithin type.size i := by
  -- There are more and more parts with at most `n` levels below them, until those that are left go
  -- round.
  have hstop : ∀ n,
    (∀ a ∈ Finset.range type.size, type.EndsWithin (n + 1) a → type.EndsWithin n a) →
      ∀ a ∈ Finset.range type.size, type.EndsWithin (n + 2) a → type.EndsWithin (n + 1) a :=
    fun n hback a _ ha c hc => hback c (Finset.mem_range.mpr (mem_children.mp hc).1) (ha c hc)
  have hcard := holds_at_card (fun n a ha => ha.succ) hstop (Finset.mem_range.mpr hi) h
  rwa [Finset.card_range] at hcard

end EndsWithin

/-! ## Well-formed types -/

/-- The first part has no parent, and every other part stands under one before it. -/
structure WellFormed (type : TypeTree) : Prop where
  root : (type.part 0).parent = none
  earlier : ∀ i < type.size, 0 < i → ∃ j < i, (type.part i).parent = some j

instance (type : TypeTree) : Decidable type.WellFormed :=
  decidable_of_iff ((type.part 0).parent = none ∧
      ∀ i < type.size, 0 < i → ∃ j < i, (type.part i).parent = some j)
    ⟨fun h => ⟨h.1, h.2⟩, fun h => ⟨h.root, h.earlier⟩⟩

theorem WellFormed.parent_lt (h : type.WellFormed) (hparent : (type.part i).parent = some j) :
    j < i := by
  rcases Nat.eq_zero_or_pos i with rfl | hpos
  · rw [h.root] at hparent
    cases hparent
  · obtain ⟨k, hk, hparent'⟩ := h.earlier i (lt_size_of_parent hparent) hpos
    rw [Option.some.inj (hparent.symm.trans hparent')]
    exact hk

theorem WellFormed.lt_of_mem_children (h : type.WellFormed) (hj : j ∈ type.children i) : i < j :=
  h.parent_lt (mem_children.mp hj).2

/-- Parts stand under earlier ones, so there are fewer and fewer left on the way down. -/
theorem WellFormed.endsWithin (h : type.WellFormed) {levels : Nat}
    (hlevels : type.size ≤ levels + i + 1) : type.EndsWithin levels i := by
  induction levels generalizing i with
  | zero =>
    refine List.eq_nil_iff_forall_not_mem.mpr fun c hc => ?_
    have hlt := h.lt_of_mem_children hc
    have hsize := (mem_children.mp hc).1
    omega
  | succ levels ih =>
    intro c hc
    have hlt := h.lt_of_mem_children hc
    exact ih (by omega)

/-- Unfolding is not cut off at a depth beyond which there are no parts. -/
theorem WellFormed.branchTo_eq_branch (h : type.WellFormed) {depth : Nat}
    (hdepth : type.size ≤ depth) (i : Nat) : type.branchTo depth i = type.branch i :=
  (h.endsWithin (Nat.le_succ_of_le (Nat.le_add_right _ i))).branchTo_eq hdepth

theorem WellFormed.branch_eq (h : type.WellFormed) (i : Nat) :
    type.branch i = .node (type.part i) ((type.children i).map type.branch) := by
  rw [← h.branchTo_eq_branch (Nat.le_succ type.size), branchTo]
  rfl

/-! ## Copies -/

/-- The second part is the first, or stands somewhere below it. -/
def Under (type : TypeTree) (i j : Nat) : Prop :=
  Relation.ReflTransGen (fun a b => (type.part a).parent = some b) j i

namespace Under

theorem iff_child : type.Under i j ↔ j = i ∨ ∃ c ∈ type.children i, type.Under c j := by
  constructor
  · intro h
    rcases Relation.ReflTransGen.cases_tail h with rfl | ⟨c, hc, hparent⟩
    · exact .inl rfl
    · exact .inr ⟨c, mem_children.mpr ⟨lt_size_of_parent hparent, hparent⟩, hc⟩
  · rintro (rfl | ⟨c, hc, h⟩)
    · exact .refl
    · exact .tail h (mem_children.mp hc).2

theorem le (hwf : type.WellFormed) (h : type.Under i j) : i ≤ j := by
  induction h with
  | refl => exact Nat.le_refl _
  | tail _ hparent ih => exact Nat.le_trans (Nat.le_of_lt (hwf.parent_lt hparent)) ih

theorem endsWithin (h : type.Under i j) {levels : Nat} (hends : type.EndsWithin levels i) :
    type.EndsWithin levels j := by
  induction levels generalizing i with
  | zero =>
    rcases iff_child.mp h with rfl | ⟨c, hc, -⟩
    · exact hends
    · rw [show type.children i = [] from hends] at hc
      cases hc
  | succ levels ih =>
    rcases iff_child.mp h with rfl | ⟨c, hc, h⟩
    · exact hends
    · exact (ih h (hends c hc)).succ

end Under

/-- A part with a last level below it does not stand below itself: there would be one level less
    each time round. -/
theorem EndsWithin.not_under {levels c : Nat} (hends : type.EndsWithin levels i)
    (hc : c ∈ type.children i) : ¬type.Under c i := by
  intro h
  induction levels with
  | zero =>
    rw [show type.children i = [] from hends] at hc
    cases hc
  | succ levels ih => exact ih (h.endsWithin (hends c hc))

/-- Nothing stands below two children of one part. -/
theorem EndsWithin.eq_of_children {levels c c' : Nat} (hends : type.EndsWithin levels i)
    (hc : c ∈ type.children i) (hc' : c' ∈ type.children i) (h : type.Under c j)
    (h' : type.Under c' j) : c = c' := by
  have hunique : Relator.RightUnique fun a b => (type.part a).parent = some b :=
    fun _ _ _ hb hb' => Option.some.inj (hb.symm.trans hb')
  -- of two parts above one, one is above the other; among children of one part it would be above
  -- their parent
  have habove : ∀ {c c' : Nat}, c ∈ type.children i → c' ∈ type.children i →
    type.Under c c' → c' = c := by
    intro c c' hc hc' h
    rcases Relation.ReflTransGen.cases_head h with heq | ⟨parent, hparent, habove⟩
    · exact heq
    · have hi : parent = i := Option.some.inj (hparent.symm.trans (mem_children.mp hc').2)
      rw [hi] at habove
      exact absurd habove (hends.not_under hc)
  rcases Relation.ReflTransGen.total_of_right_unique hunique h h' with h | h
  · exact habove hc' hc h
  · exact (habove hc hc' h).symm

/-- Parts that are copied, each with its index in the type and the parent it gets. -/
abbrev Copied := List (Nat × TypePart)

/-- Copies of several parts under a parent, each with all that is below it, one after the other. -/
def copiesUnder (copy : Nat → Option Nat → Nat → Copied) (parent : Nat) :
    (start : Nat) → List Nat → Copied
  | _, [] => []
  | start, c :: rest =>
    copy c (some parent) start ++ copiesUnder copy parent
      (start + (copy c (some parent) start).length) rest

/-- Copies of a part and of all that is below it, the first at the index `start`. -/
def copies (type : TypeTree) : (depth : Nat) → Nat → Option Nat → Nat → Copied
  | 0, i, parent, _ => [(i, { type.part i with parent })]
  | depth + 1, i, parent, start =>
    (i, { type.part i with parent }) :: copiesUnder (type.copies depth) start
      (start + 1) (type.children i)

theorem flattenInto_branchTo (type : TypeTree) (depth i : Nat) (parent : Option Nat)
    (out : List TypePart) :
    (type.branchTo depth i).flattenInto parent out = out ++
    (type.copies depth i parent out.length).map (·.2) := by
  induction depth generalizing i parent out with
  | zero => rw [branchTo, Branch.flattenInto, Branch.flattenUnder, copies, List.map_singleton]
  | succ depth ih =>
    have hunder : ∀ (cs : List Nat) (p : Nat) (out : List TypePart),
        Branch.flattenUnder (cs.map (type.branchTo depth)) p out =
          out ++ (copiesUnder (type.copies depth) p out.length cs).map (·.2) := by
      intro cs p
      induction cs with
      | nil =>
        intro out
        rw [List.map_nil, Branch.flattenUnder, copiesUnder, List.map_nil, List.append_nil]
      | cons c cs ihcs =>
        intro out
        rw [List.map_cons, Branch.flattenUnder, ih, ihcs, copiesUnder, List.map_append,
          List.append_assoc, List.length_append, List.length_map]
    rw [branchTo, Branch.flattenInto, hunder, copies, List.map_cons, List.append_assoc,
      List.length_append, List.length_singleton]
    rfl

/-- The indices of the parts that are under another in a list of copies. -/
def Copied.under (copied : Copied) (parent : Nat) : List Nat :=
  (copied.filter fun copy => copy.2.parent == some parent).map (·.1)

namespace Copied

variable {copied copied' : Copied} {parent : Nat}

theorem under_append (copied copied' : Copied) (parent : Nat) :
    (copied ++ copied').under parent = copied.under parent ++ copied'.under parent := by
  rw [under, List.filter_append, List.map_append]
  rfl

theorem under_eq_nil (h : ∀ copy ∈ copied, copy.2.parent ≠ some parent) :
    copied.under parent = [] := by
  rw [under, List.filter_eq_nil_iff.mpr, List.map_nil]
  intro copy hcopy
  rw [beq_iff_eq]
  exact h copy hcopy

end Copied

/-- Copies of siblings from `start` on, each with all that is below it: a copy is under the parent
    of the siblings or under an earlier copy, and it has the same children. -/
structure CopiesAll (type : TypeTree) (indices : List Nat) (parent start : Nat)
    (copied : Copied) : Prop where
  same : ∀ copy ∈ copied, copy.2.detached = (type.part copy.1).detached
  inner : ∀ k copy, copied[k]? = some copy →
    ∃ p, copy.2.parent = some p ∧ (p = parent ∨ start ≤ p ∧ p < start + k)
  top : copied.under parent = indices
  children : ∀ k copy, copied[k]? = some copy → copied.under (start + k) = type.children copy.1
  mem_iff : ∀ j, j ∈ copied.map (·.1) ↔ ∃ c ∈ indices, type.Under c j
  once : (copied.map (·.1)).Nodup

/-- Copies of a part and of all that is below it, from `start` on. -/
structure CopiesOne (type : TypeTree) (index : Nat) (parent : Option Nat) (start : Nat)
    (copied : Copied) : Prop where
  same : ∀ copy ∈ copied, copy.2.detached = (type.part copy.1).detached
  first : copied[0]? = some (index, { type.part index with parent })
  inner : ∀ k copy, copied[k + 1]? = some copy → ∃ p,
    copy.2.parent = some p ∧ start ≤ p ∧ p ≤ start + k
  children : ∀ k copy, copied[k]? = some copy → copied.under (start + k) = type.children copy.1
  mem_iff : ∀ j, j ∈ copied.map (·.1) ↔ type.Under index j
  once : (copied.map (·.1)).Nodup

theorem CopiesAll.nil (parent start : Nat) : type.CopiesAll [] parent start [] where
  same _ h := absurd h List.not_mem_nil
  inner _ _ h := by cases h
  top := rfl
  children _ _ h := by cases h
  mem_iff j := by simp
  once := List.nodup_nil

namespace CopiesOne

variable {index parent start : Nat} {copied : Copied}

theorem eq_cons {parent : Option Nat} (h : type.CopiesOne index parent start copied) :
    copied = (index, { type.part index with parent }) :: copied.tail := by
  have hfirst := h.first
  cases copied with
  | nil => cases hfirst
  | cons copy rest =>
    cases hfirst
    rfl

/-- Only the first of the copies is under the parent. -/
theorem under_parent (h : type.CopiesOne index (some parent) start copied) (hlt : parent < start) :
    copied.under parent = [index] := by
  have htail : Copied.under copied.tail parent = [] := by
    refine Copied.under_eq_nil fun copy hcopy hparent => ?_
    obtain ⟨k, hk⟩ := List.mem_iff_getElem?.mp hcopy
    rw [List.getElem?_tail] at hk
    obtain ⟨p, hp, hle, -⟩ := h.inner k copy hk
    have := Option.some.inj (hp.symm.trans hparent)
    omega
  have hhead : Copied.under [(index, { type.part index with parent := some parent })] parent =
    [index] := by
    simp [Copied.under]
  rw [h.eq_cons, ← List.singleton_append, Copied.under_append, hhead, htail]
  rfl

/-- No copy is under anything but the parent and the copies. -/
theorem parent_cases (h : type.CopiesOne index (some parent) start copied) {copy : Nat × TypePart}
    (hcopy : copy ∈ copied) :
    ∃ p, copy.2.parent = some p ∧ (p = parent ∨ start ≤ p ∧ p < start + copied.length) := by
  obtain ⟨k, hk⟩ := List.mem_iff_getElem?.mp hcopy
  have hlt : k < copied.length := (List.getElem?_eq_some_iff.mp hk).1
  cases k with
  | zero =>
    rw [h.first] at hk
    cases hk
    exact ⟨parent, rfl, .inl rfl⟩
  | succ k =>
    obtain ⟨p, hp, hle, hlast⟩ := h.inner k copy hk
    exact ⟨p, hp, .inr ⟨hle, by omega⟩⟩

end CopiesOne

variable {parent start : Nat}

/-- One sibling more before the others. -/
theorem CopiesAll.cons {c : Nat} {cs : List Nat} {one all : Copied} (hlt : parent < start)
    (hone : type.CopiesOne c (some parent) start one)
    (hall : type.CopiesAll cs parent (start + one.length) all)
    (hdisjoint : ∀ j ∈ one.map (·.1), j ∉ all.map (·.1)) :
      type.CopiesAll (c :: cs) parent start (one ++ all) where
  same copy hcopy := (List.mem_append.mp hcopy).elim (hone.same copy) (hall.same copy)
  inner k copy hk := by
    rcases Nat.lt_or_ge k one.length with hold | hnew
    · rw [List.getElem?_append_left hold] at hk
      cases k with
      | zero =>
        rw [hone.first] at hk
        cases hk
        exact ⟨parent, rfl, .inl rfl⟩
      | succ k =>
        obtain ⟨p, hp, hle, hlast⟩ := hone.inner k copy hk
        exact ⟨p, hp, .inr ⟨hle, by omega⟩⟩
    · rw [List.getElem?_append_right hnew] at hk
      obtain ⟨p, hp, hp'⟩ := hall.inner _ copy hk
      exact ⟨p, hp, hp'.imp_right fun h => by omega⟩
  top := by
    rw [Copied.under_append, hone.under_parent hlt, hall.top]
    rfl
  children k copy hk := by
    rw [Copied.under_append]
    rcases Nat.lt_or_ge k one.length with hold | hnew
    · rw [List.getElem?_append_left hold] at hk
      have hnone : Copied.under all (start + k) = [] := by
        refine Copied.under_eq_nil fun copy hcopy hparent => ?_
        obtain ⟨n, hn⟩ := List.mem_iff_getElem?.mp hcopy
        obtain ⟨p, hp, hp'⟩ := hall.inner n copy hn
        have := Option.some.inj (hp.symm.trans hparent)
        omega
      rw [hone.children k copy hk, hnone, List.append_nil]
    · rw [List.getElem?_append_right hnew] at hk
      have hnone : Copied.under one (start + k) = [] := by
        refine Copied.under_eq_nil fun copy hcopy hparent => ?_
        obtain ⟨p, hp, hp'⟩ := hone.parent_cases hcopy
        have := Option.some.inj (hp.symm.trans hparent)
        omega
      have hindex : start + one.length + (k - one.length) = start + k := by omega
      rw [hnone, List.nil_append, ← hindex]
      exact hall.children _ copy hk
  mem_iff j := by
    rw [List.map_append, List.mem_append, hone.mem_iff, hall.mem_iff]
    simp only [List.mem_cons, exists_eq_or_imp]
  once := by
    rw [List.map_append, List.nodup_append']
    exact ⟨hone.once, hall.once, hdisjoint⟩

/-- A part before its children. -/
theorem CopiesAll.to_one {parent : Option Nat} {levels : Nat} {all : Copied}
    (hends : type.EndsWithin levels i) (hparent : ∀ p, parent = some p → p < start)
    (hall : type.CopiesAll (type.children i) start (start + 1) all) :
    type.CopiesOne i parent start ((i, { type.part i with parent }) :: all) := by
  -- the part itself is not under one of the copies
  have hfirst : ∀ p, start ≤ p →
      Copied.under ((i, { type.part i with parent }) :: all) p = Copied.under all p := by
    intro p hp
    have hnone : Copied.under [(i, { type.part i with parent })] p = [] := by
      refine Copied.under_eq_nil fun copy hcopy hcontra => ?_
      rw [List.mem_singleton.mp hcopy] at hcontra
      exact absurd (hparent p hcontra) (by omega)
    rw [← List.singleton_append, Copied.under_append, hnone, List.nil_append]
  refine ⟨?_, rfl, ?_, ?_, ?_, ?_⟩
  · intro copy hcopy
    rcases List.mem_cons.mp hcopy with rfl | hcopy
    · rfl
    · exact hall.same copy hcopy
  · intro k copy hk
    rw [List.getElem?_cons_succ] at hk
    obtain ⟨p, hp, hp'⟩ := hall.inner k copy hk
    exact ⟨p, hp, by omega⟩
  · intro k copy hk
    rw [hfirst _ (by omega)]
    cases k with
    | zero =>
      cases hk
      exact hall.top
    | succ k =>
      rw [List.getElem?_cons_succ] at hk
      rw [← hall.children k copy hk]
      congr 1
      omega
  · intro j
    rw [List.map_cons, List.mem_cons, hall.mem_iff]
    exact Under.iff_child.symm
  · rw [List.map_cons, List.nodup_cons, hall.mem_iff]
    refine ⟨?_, hall.once⟩
    rintro ⟨c, hc, h⟩
    exact hends.not_under hc h

theorem nodup_children (type : TypeTree) (i : Nat) : (type.children i).Nodup := by
  rw [children_eq]
  exact List.nodup_range.filter _

/-- Copying goes down to the last part that is below. -/
theorem EndsWithin.copies_one {depth : Nat} {parent : Option Nat} (hends : type.EndsWithin depth i)
    (hparent : ∀ p, parent = some p → p < start) :
    type.CopiesOne i parent start (type.copies depth i parent start) := by
  induction depth generalizing i parent start with
  | zero =>
    have hall : type.CopiesAll (type.children i) start (start + 1) [] := by
      rw [show type.children i = [] from hends]
      exact CopiesAll.nil start (start + 1)
    exact hall.to_one hends hparent
  | succ depth ih =>
    have hsiblings : ∀ cs, cs ⊆ type.children i → cs.Nodup → ∀ from', start < from' →
        type.CopiesAll cs start from' (copiesUnder (type.copies depth) start from' cs) := by
      intro cs
      induction cs with
      | nil => exact fun _ _ from' _ => CopiesAll.nil start from'
      | cons c cs ihcs =>
        intro hsub hnodup from' hlt
        obtain ⟨hc, hcs⟩ := List.cons_subset.mp hsub
        obtain ⟨hnot, hnodup⟩ := List.nodup_cons.mp hnodup
        have hone : type.CopiesOne c (some start) from' (type.copies depth c (some start) from') :=
          ih (hends c hc) fun p hp => Option.some.inj hp ▸ hlt
        have hall :=
          ihcs hcs hnodup (from' + (type.copies depth c (some start) from').length) (by omega)
        refine CopiesAll.cons hlt hone hall fun j hj hj' => ?_
        obtain ⟨c', hc', h'⟩ := (hall.mem_iff j).mp hj'
        have heq := hends.eq_of_children hc (hcs hc') ((hone.mem_iff j).mp hj) h'
        exact hnot (heq ▸ hc')
    have hall := hsiblings _ (List.Subset.refl _) (nodup_children type i) _ (Nat.lt_succ_self start)
    exact hall.to_one hends hparent

/-! ## Subtypes -/

/-- A part is copied if it is above a last level, with all that is unfolded below it. -/
theorem copyInto?_eq_some_iff {levels : Nat} {parent : Option Nat} {out copied : List TypePart} :
    type.copyInto? (levels + 1) i parent out = some copied ↔
      type.EndsWithin levels i ∧ copied = (type.branchTo levels i).flattenInto parent out := by
  induction levels generalizing i parent out copied with
  | zero =>
    rw [copyInto?, EndsWithin, branchTo, Branch.flattenInto, Branch.flattenUnder]
    cases type.children i with
    | nil => exact ⟨fun h => ⟨rfl, (Option.some.inj h).symm⟩, fun h => congrArg some h.2.symm⟩
    | cons c cs =>
      constructor
      · intro h
        cases h
      · rintro ⟨hnone, -⟩
        cases hnone
  | succ levels ih =>
    -- The children are copied one after the other, each behind what was copied before.
    have hchildren : ∀ (cs : List Nat) (start : Nat) (out copied : List TypePart),
        cs.foldlM (fun copied child => type.copyInto? (levels + 1) child (some start) copied) out =
        some copied ↔
          (∀ c ∈ cs, type.EndsWithin levels c) ∧
            copied = Branch.flattenUnder (cs.map (type.branchTo levels)) start out := by
      intro cs start
      induction cs with
      | nil =>
        intro out copied
        simp [Branch.flattenUnder, eq_comm]
      | cons c cs ihcs =>
        intro out copied
        rw [List.foldlM_cons, List.map_cons, Branch.flattenUnder, List.forall_mem_cons]
        constructor
        · intro h
          obtain ⟨first, hfirst, hrest⟩ := Option.bind_eq_some_iff.mp h
          obtain ⟨hends, rfl⟩ := ih.mp hfirst
          obtain ⟨hall, rfl⟩ := (ihcs _ _).mp hrest
          exact ⟨⟨hends, hall⟩, rfl⟩
        · rintro ⟨⟨hends, hall⟩, rfl⟩
          exact Option.bind_eq_some_iff.mpr ⟨_, ih.mpr ⟨hends, rfl⟩, (ihcs _ _).mpr ⟨hall, rfl⟩⟩
    rw [copyInto?, hchildren, branchTo, Branch.flattenInto]
    exact Iff.rfl

/-- A type that has exactly the parts of a subtree of another, in the order of a list of their
    indices.  Parent links aside they are the same, and each has the same
    children in the same order. -/
structure IsCopy (type : TypeTree) (root : Nat) (indices : List Nat) (copy : TypeTree) : Prop where
  first : indices[0]? = some root
  mem_iff : ∀ i, i ∈ indices ↔ type.Under root i
  once : indices.Nodup
  parts : copy.parts.map TypePart.detached = indices.map fun i => (type.part i).detached
  children : ∀ k i, indices[k]? = some i →
    (copy.children k).map (indices[·]?) = (type.children i).map some

/-- What stands under a copy was copied from what stands under the part. -/
theorem map_children_copied (copied : Copied) (k : Nat) :
    ((⟨copied.map (·.2)⟩ : TypeTree).children k).map ((copied.map (·.1))[·]?) =
    (copied.under k).map some := by
  have hzip : (copied.map (·.2)).zipIdx = copied.zipIdx.map fun entry => (entry.1.2, entry.2) := by
    rw [List.zipIdx_map]
    rfl
  have hfst : copied.filter (fun copy => copy.2.parent == some k) =
      (copied.zipIdx.filter fun entry => entry.1.2.parent == some k).map (·.1) := by
    conv_lhs => rw [← List.zipIdx_map_fst 0 copied, List.filter_map]
    rfl
  rw [TypeTree.children, Copied.under, hzip, hfst, List.filter_map, List.map_map,
    List.map_map, List.map_map, List.map_map]
  refine List.map_congr_left fun entry hentry => ?_
  have hget := List.mem_zipIdx_iff_getElem?.mp (List.mem_filter.mp hentry).1
  simp [hget]

variable {e : Nat} {copy : TypeTree}

/-- There is a subtype exactly where there is a last level. -/
theorem subtype?_eq_some_iff (he : e < type.size) :
    type.subtype? e = some copy ↔ type.EndsWithin type.size e ∧ copy = (type.branch e).flatten := by
  rw [subtype?, if_pos he, Option.map_eq_some_iff]
  constructor
  · rintro ⟨parts, hparts, rfl⟩
    obtain ⟨hends, rfl⟩ := copyInto?_eq_some_iff.mp hparts
    have hsize := hends.at_size he
    rw [hsize.branchTo_eq (Nat.le_add_left ..)]
    exact ⟨hsize, rfl⟩
  · rintro ⟨hends, rfl⟩
    have hdeeper := hends.mono (Nat.le_add_left type.size outOfReach)
    exact ⟨_, copyInto?_eq_some_iff.mpr
      ⟨hdeeper, rfl⟩, by rw [hends.branchTo_eq (Nat.le_add_left ..)]; rfl⟩

/-- There is no subtype exactly if copying it never ends. -/
theorem subtype?_eq_none_iff (he : e < type.size) :
    type.subtype? e = none ↔ ∀ levels, type.copyInto? levels e none [] = none := by
  simp only [Option.eq_none_iff_forall_ne_some]
  constructor
  · intro h levels parts hparts
    cases levels with
    | zero => cases hparts
    | succ levels =>
      obtain ⟨hends, -⟩ := copyInto?_eq_some_iff.mp hparts
      exact h _ ((subtype?_eq_some_iff he).mpr ⟨hends.at_size he, rfl⟩)
  · intro h copy hcopy
    obtain ⟨hends, -⟩ := (subtype?_eq_some_iff he).mp hcopy
    exact h (type.size + 1) _ (copyInto?_eq_some_iff.mpr ⟨hends, rfl⟩)

/-- What is copied out of a type, with the indices it comes from. -/
def copied (type : TypeTree) (e : Nat) : Copied := type.copies type.size e none 0

theorem flatten_branch (type : TypeTree) (e : Nat) :
    (type.branch e).flatten = ⟨(type.copied e).map (·.2)⟩ := by
  rw [Branch.flatten, branch, flattenInto_branchTo]
  rfl

namespace EndsWithin

theorem copies_copied (h : type.EndsWithin type.size e) : type.CopiesOne e none 0 (type.copied e) :=
  h.copies_one fun p hp => by cases hp

/-- A subtype has the parts of the subtree. -/
theorem isCopy (h : type.EndsWithin type.size e) :
    type.IsCopy e ((type.copied e).map (·.1)) (type.branch e).flatten := by
  have hcopies := h.copies_copied
  refine ⟨?_, hcopies.mem_iff, hcopies.once, ?_, ?_⟩
  · rw [List.getElem?_map, hcopies.first]
    rfl
  · rw [flatten_branch, List.map_map, List.map_map]
    exact List.map_congr_left hcopies.same
  · intro k i hk
    rw [List.getElem?_map] at hk
    obtain ⟨copy, hcopy, rfl⟩ := Option.map_eq_some_iff.mp hk
    rw [flatten_branch, map_children_copied, ← hcopies.children k copy hcopy, Nat.zero_add]

/-- Whatever the type is like, its subtypes are trees. -/
theorem wellFormed_flatten (h : type.EndsWithin type.size e) :
    (type.branch e).flatten.WellFormed := by
  have hcopies := h.copies_copied
  have hpart : ∀ k copy, (type.copied e)[k]? = some copy →
    (type.branch e).flatten.part k = copy.2 := by
    intro k copy hk
    rw [flatten_branch, part_eq_getD, List.getElem?_map, hk]
    rfl
  refine ⟨by rw [hpart 0 _ hcopies.first], fun k hk hpos => ?_⟩
  obtain ⟨n, rfl⟩ := Nat.exists_eq_succ_of_ne_zero (Nat.ne_of_gt hpos)
  rw [size, flatten_branch, List.length_map] at hk
  obtain ⟨p, hp, -, hle⟩ := hcopies.inner n _ (List.getElem?_eq_getElem hk)
  exact ⟨p, by omega, by rw [hpart _ _ (List.getElem?_eq_getElem hk), hp]⟩

/-- A subtype has no more parts than there are in the type from the subtree on. -/
theorem size_flatten_le (h : type.EndsWithin type.size e) (he : e < type.size) {low : Nat}
    (hlow : ∀ j, type.Under e j → low ≤ j) : (type.branch e).flatten.size ≤ type.size - low := by
  have hcopies := h.copies_copied
  have hsub : (type.copied e).map (·.1) ⊆ List.range' low (type.size - low) := by
    intro j hj
    have hunder := (hcopies.mem_iff j).mp hj
    have hle := hlow j hunder
    have hlt : j < type.size := by
      rcases Relation.ReflTransGen.cases_head hunder with rfl | ⟨_, hparent, _⟩
      · exact he
      · exact lt_size_of_parent hparent
    exact List.mem_range'_1.mpr ⟨hle, by omega⟩
  have hlength := (hcopies.once.subperm hsub).length_le
  rw [List.length_range', List.length_map] at hlength
  rwa [flatten_branch, TypeTree.size, List.length_map]

end EndsWithin

/-- The empty type where there is no part, and the subtree where there is one. -/
theorem WellFormed.subtype?_eq (h : type.WellFormed) (e : Nat) :
    type.subtype? e = some (if e < type.size then (type.branch e).flatten else .empty) := by
  split
  · rename_i he
    exact (subtype?_eq_some_iff he).mpr ⟨h.endsWithin (by omega), rfl⟩
  · rename_i he
    rw [subtype?, if_neg he]

theorem WellFormed.subtype?_eq_subtype (h : type.WellFormed) (e : Nat) :
    type.subtype? e = some (type.subtype e) := by
  rw [TypeTree.subtype, h.subtype?_eq, Option.getD_some]

theorem WellFormed.subtype_eq (h : type.WellFormed) (he : e < type.size) :
    type.subtype e = (type.branch e).flatten := by
  rw [TypeTree.subtype, h.subtype?_eq, Option.getD_some, if_pos he]

theorem WellFormed.isCopy_subtype (h : type.WellFormed) (he : e < type.size) :
    type.IsCopy e ((type.copied e).map (·.1)) (type.subtype e) := by
  rw [h.subtype_eq he]
  exact (h.endsWithin (by omega)).isCopy

/-- Whatever a type is like, what is copied out of it is a tree. -/
theorem wellFormed_of_subtype? (hcopy : type.subtype? e = some copy) : copy.WellFormed := by
  by_cases he : e < type.size
  · obtain ⟨hends, rfl⟩ := (subtype?_eq_some_iff he).mp hcopy
    exact hends.wellFormed_flatten
  · rw [subtype?, if_neg he] at hcopy
    obtain rfl := Option.some.inj hcopy
    exact ⟨rfl, fun k hk => absurd hk (Nat.not_lt_zero k)⟩

theorem WellFormed.subtype (h : type.WellFormed) (e : Nat) : (type.subtype e).WellFormed :=
  wellFormed_of_subtype? (h.subtype?_eq_subtype e)

theorem size_subtype?_le (hcopy : type.subtype? e = some copy) : copy.size ≤ type.size := by
  by_cases he : e < type.size
  · obtain ⟨hends, rfl⟩ := (subtype?_eq_some_iff he).mp hcopy
    exact hends.size_flatten_le he fun j _ => Nat.zero_le j
  · rw [subtype?, if_neg he] at hcopy
    obtain rfl := Option.some.inj hcopy
    exact Nat.zero_le _

theorem WellFormed.size_subtype?_le (h : type.WellFormed) (hcopy : type.subtype? e = some copy) :
    copy.size ≤ type.size - e := by
  by_cases he : e < type.size
  · obtain ⟨hends, rfl⟩ := (subtype?_eq_some_iff he).mp hcopy
    exact hends.size_flatten_le he fun j hj => hj.le h
  · rw [subtype?, if_neg he] at hcopy
    obtain rfl := Option.some.inj hcopy
    exact Nat.zero_le _

/-! ## Reading -/

namespace IsCopy

variable {root : Nat} {indices : List Nat}

theorem detached_part (h : type.IsCopy root indices copy) {k : Nat} (hk : indices[k]? = some i) :
    (copy.part k).detached = (type.part i).detached := by
  have hget := congrArg (·[k]?) h.parts
  simp only [List.getElem?_map, hk, Option.map_some] at hget
  obtain ⟨part, hpart, hsame⟩ := Option.map_eq_some_iff.mp hget
  rw [part_eq_getD, hpart]
  exact hsame

/-- What the children of a copy are unfolded to, detached, is what the children of the part are
    unfolded to. -/
theorem map_children_eq {α : Type} (h : type.IsCopy root indices copy) {k : Nat}
    (hk : indices[k]? = some i) {f g : Nat → α} (hfg : ∀ k i, indices[k]? = some i → f k = g i) :
    (copy.children k).map f = (type.children i).map g := by
  have hsome : ((copy.children k).map f).map some = ((type.children i).map g).map some := by
    have hchildren := congrArg (List.map (Option.map g)) (h.children k i hk)
    rw [List.map_map, List.map_map] at hchildren
    rw [List.map_map, List.map_map]
    refine Eq.trans (List.map_congr_left fun c hc => ?_) hchildren
    have hin : indices[c]? ∈ (type.children i).map some :=
      h.children k i hk ▸ List.mem_map_of_mem hc
    obtain ⟨c', -, hc'⟩ := List.mem_map.mp hin
    simp only [Function.comp_apply, ← hc', Option.map_some, hfg c c' hc'.symm]
  have hinj : Function.Injective (some : α → Option α) := fun _ _ => Option.some.inj
  exact List.map_injective_iff.mpr hinj hsome

theorem detached_branchTo (h : type.IsCopy root indices copy) (depth : Nat) {k : Nat}
    (hk : indices[k]? = some i) :
    (copy.branchTo depth k).detached = (type.branchTo depth i).detached := by
  induction depth generalizing k i with
  | zero =>
    rw [branchTo, branchTo, Branch.detached_node, Branch.detached_node, h.detached_part hk]
  | succ depth ih =>
    rw [branchTo, branchTo, Branch.detached_node, Branch.detached_node,
      h.detached_part hk, List.map_map, List.map_map]
    exact congrArg _ (h.map_children_eq hk fun _ _ => ih)

end IsCopy

/-- The first part with a flag is the first of the copies with it. -/
theorem EndsWithin.flagged?_branchTo {depth deeper : Nat} (h : type.EndsWithin depth i)
    (hle : depth ≤ deeper) (flag : TypePart → Bool) (parent : Option Nat) (start : Nat) :
    (type.branchTo depth i).flagged? flag =
      (((type.copies depth i parent start).map (·.1)).find? fun j => flag (type.part j)).map
        fun j => (type.children j).map (type.branchTo deeper) := by
  induction depth generalizing i parent start with
  | zero =>
    have hnone : type.children i = [] := h
    rw [branchTo, Branch.flagged?, copies, List.map_singleton, List.find?_singleton]
    split
    · rw [Option.map_some, hnone, List.map_nil]
    · rfl
  | succ depth ih =>
    have hunder : ∀ cs, cs ⊆ type.children i → ∀ start',
        Branch.flaggedIn? flag (cs.map (type.branchTo depth)) =
          (((copiesUnder (type.copies depth) start start' cs).map (·.1)).find? fun j =>
            flag (type.part j)).map
            fun j => (type.children j).map (type.branchTo deeper) := by
      intro cs
      induction cs with
      | nil => exact fun _ _ => rfl
      | cons c cs ihcs =>
        intro hsub start'
        obtain ⟨hc, hcs⟩ := List.cons_subset.mp hsub
        rw [List.map_cons, Branch.flaggedIn?, ih (h c hc) (by omega) (some start) start',
          ihcs hcs, copiesUnder, List.map_append, List.find?_append, Option.map_or]
    rw [branchTo, Branch.flagged?, copies, List.map_cons, List.find?_cons]
    cases hflag : flag (type.part i) with
    | true =>
      rw [if_pos rfl, Option.map_some]
      exact congrArg some (List.map_congr_left fun c hc => ((h c hc).branchTo_eq (by omega)).symm)
    | false =>
      rw [if_neg Bool.false_ne_true]
      exact hunder _ (List.Subset.refl _) _

/-- The children of the first flagged part of a copy come from those of the first flagged part of
    the subtree. -/
theorem IsCopy.map_flagged_eq {α : Type} {copy : TypeTree} {root : Nat} {indices : List Nat}
    (h : type.IsCopy root indices copy) (flag : TypePart → Bool)
    (hflag : ∀ part : TypePart, flag part.detached = flag part) {f g : Nat → α}
    (hfg : ∀ k i, indices[k]? = some i → f k = g i) :
    (copy.flagged flag).map f =
      ((indices.find? fun i => flag (type.part i)).map fun i =>
        (type.children i).map g).getD [] := by
  have hindex : copy.parts.findIdx? flag = indices.findIdx? fun i => flag (type.part i) := by
    have hparts := congrArg (List.findIdx? flag) h.parts
    rw [List.findIdx?_map, List.findIdx?_map] at hparts
    have hdetached : flag ∘ TypePart.detached = flag := funext hflag
    have hdetached' : (flag ∘ fun i => (type.part i).detached) = fun i => flag (type.part i) :=
      funext fun i => hflag (type.part i)
    rwa [hdetached, hdetached'] at hparts
  rw [flagged, hindex, List.find?_eq_bind_findIdx?_getElem?]
  cases hfind : indices.findIdx? fun i => flag (type.part i) with
  | none => rfl
  | some k =>
    obtain ⟨hk, -⟩ := List.findIdx?_eq_some_iff_getElem.mp hfind
    simp only [Option.bind_some, List.getElem?_eq_getElem hk, Option.map_some, Option.getD_some]
    exact h.map_children_eq (List.getElem?_eq_getElem hk) hfg

namespace EndsWithin

variable {depth : Nat}

/-- The children of the first part with a flag are found in a subtype by index. -/
theorem flagged_flatten (h : type.EndsWithin type.size e) (hdepth : type.size ≤ depth)
    (flag : TypePart → Bool) (hflag : ∀ part : TypePart, flag part.detached = flag part) :
    ((type.branch e).flatten.flagged flag).map
    (fun k => ((type.branch e).flatten.branchTo depth k).detached) =
      (((type.branch e).flagged? flag).getD []).map Branch.detached := by
  rw [h.isCopy.map_flagged_eq flag hflag fun k i => h.isCopy.detached_branchTo depth, branch,
    h.flagged?_branchTo hdepth flag none 0]
  rw [copied]
  cases ((type.copies type.size e none 0).map (·.1)).find? fun i => flag (type.part i) with
  | none => rfl
  | some i => exact (List.map_map ..).symm

/-- So is the return type. -/
theorem return?_flatten (h : type.EndsWithin type.size e) (he : e < type.size)
    (hdepth : type.size ≤ depth) :
    (type.branch e).flatten.return?.map
    (fun k => ((type.branch e).flatten.branchTo depth k).detached) =
      ((type.branch e).children.find? Branch.isReturn).map Branch.detached := by
  obtain ⟨n, hn⟩ := Nat.exists_eq_succ_of_ne_zero (Nat.ne_of_gt (Nat.zero_lt_of_lt he))
  have hchildren : (type.branch e).children.map Branch.detached =
      ((type.branch e).flatten.children 0).map fun k =>
        ((type.branch e).flatten.branchTo depth k).detached := by
    rw [h.isCopy.map_children_eq h.isCopy.first fun k i => h.isCopy.detached_branchTo depth]
    rw [hn] at h
    rw [branch, hn, branchTo, Branch.children, List.map_map]
    refine List.map_congr_left fun c hc => ?_
    rw [Function.comp_apply, (h c hc).branchTo_eq (show n ≤ depth by omega)]
  have hreturn : (Branch.isReturn ∘ fun k => ((type.branch e).flatten.branchTo depth k).detached) =
      fun k => !((type.branch e).flatten.part k).parameters &&
        !((type.branch e).flatten.part k).genericParameters := by
    funext k
    rw [Function.comp_apply, Branch.isReturn_detached, Branch.isReturn, part_branchTo]
  rw [← Branch.find?_isReturn_detached, hchildren, List.find?_map, hreturn]
  rfl

end EndsWithin

namespace WellFormed

/-- A subtype unfolds into the subtree. -/
theorem detached_branch_subtype (h : type.WellFormed) (he : e < type.size) :
    ((type.subtype e).branch 0).detached = (type.branch e).detached := by
  have hcopy := h.isCopy_subtype he
  have hsize := TypeTree.size_subtype?_le (h.subtype?_eq_subtype e)
  rw [← (h.subtype e).branchTo_eq_branch hsize,
    hcopy.detached_branchTo type.size hcopy.first, branch]

theorem size_subtype_pos (h : type.WellFormed) (he : e < type.size) :
    0 < (type.subtype e).size := by
  have hcopy := h.isCopy_subtype he
  have hlength := congrArg List.length hcopy.parts
  rw [List.length_map, List.length_map] at hlength
  rw [size, hlength]
  exact (List.getElem?_eq_some_iff.mp hcopy.first).1

/-- A subtype is in order already. -/
theorem subtype_subtype_zero (h : type.WellFormed) (he : e < type.size) :
    (type.subtype e).subtype 0 = type.subtype e := by
  rw [(h.subtype e).subtype_eq (h.size_subtype_pos he),
    Branch.flatten_eq_of_detached_eq (h.detached_branch_subtype he), h.subtype_eq he]

end WellFormed

end TypeTree

end CompositeGraph
