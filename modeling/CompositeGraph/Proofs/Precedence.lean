/-
  PRECEDENCE: how a sequence of operands and operators is arranged.

  A tree over a sequence is as it should be if no operator has one below it that binds less tightly,
  and if of two operators of one precedence the upper one associates to the right or the lower one,
  on the left, to the left.  Climbing compares no two operators of a tree: it asks the right side of
  an operator to bind at least as tightly as some minimum, and remembers the last operator if that
  does not associate.  Both come to the same, but for the greatest precedence, which no minimum lies
  above: there all operators associate to the right.

    1. PHRASES.      `Alternates`, and `Opens`: the longest phrase that a sequence starts with.
    2. ARRANGEMENT.  `Ordered` and `Associates`, and what they say about one
                     operator and its two sides.
    3. CLIMBING.     One step of climbing, and what is kept from step to step (`Climbing`) to the
                     end (`Climbed`).
    4. RETURNING.    Over the nodes of a tree that is arranged, climbing comes back to that tree.
    5. SEQUENCES.    What becomes of a sequence, and when there is no tree.
-/
import CompositeGraph.Evaluation.Operators
import CompositeGraph.Proofs.Discipline

namespace CompositeGraph.Operation

open Run (precedenceIn)

/-! ## Phrases -/

/-- Nodes that are an operand, an operator, an operand and so on to a last
    operand, and what they are. -/
inductive Alternates : List Item → List Node → Prop where
  | operand (node : Node) : Alternates [.operand node] [node]
  | chain {node operator : Node} {symbol : String} {items : List Item} {nodes : List Node} :
      operator.between? = some symbol → Alternates items nodes →
        Alternates (.operand node :: .operator symbol :: items) (node :: operator :: nodes)

/-- The longest phrase that a sequence starts with, and what it is. -/
structure Opens (items : List Item) (phrase values : List Node) : Prop where
  alternates : Alternates items phrase
  start : phrase <+: values
  longest : ∀ {items' other}, Alternates items' other → other <+: values →
    other.length ≤ phrase.length

/-- What is left of a sequence behind a phrase: a last operator without an operand is not. -/
def Leaves (phrase values rest : List Node) : Prop :=
  values = phrase ++ rest ∧ (∀ node ∈ rest.head?, node.between? = none) ∨
    ∃ operator : Node, operator.between?.isSome ∧ values = phrase ++ [operator] ∧ rest = []

section Phrases

variable {items items' : List Item} {phrase other behind values rest : List Node}
  {symbol : String} {operator : Node}

theorem Alternates.append (h : Alternates items phrase)
    (hoperator : operator.between? = some symbol) (h' : Alternates items' behind) :
    Alternates (items ++ .operator symbol :: items') (phrase ++ operator :: behind) := by
  induction h with
  | operand node => exact .chain hoperator h'
  | chain hfirst _ ih => exact .chain hfirst ih

theorem Alternates.split (h : Alternates (items ++ .operator symbol :: items') phrase) :
    ∃ before operator behind, phrase = before ++ operator :: behind ∧ Alternates items before ∧
      operator.between? = some symbol ∧ Alternates items' behind := by
  generalize hall : items ++ .operator symbol :: items' = all at h
  induction h generalizing items with
  | operand node =>
    rcases items with _ | ⟨_, _ | ⟨_, _⟩⟩ <;> cases hall
  | @chain node operator first later nodes hoperator hlater ih =>
    rcases items with _ | ⟨_, _ | ⟨_, items⟩⟩
    · cases hall
    · cases hall
      exact ⟨[node], operator, nodes, rfl, .operand node, hoperator, hlater⟩
    · cases hall
      obtain ⟨before, operator', behind, rfl, hbefore, hoperator', hbehind⟩ := ih rfl
      exact ⟨node :: operator :: before, operator', behind, rfl, .chain hoperator hbefore,
        hoperator', hbehind⟩

/-- A phrase is the longest one if no operator follows it. -/
theorem Alternates.opens (h : Alternates items phrase)
    (hrest : ∀ node ∈ rest.head?, node.between? = none) : Opens items phrase (phrase ++ rest) := by
  refine ⟨h, List.prefix_append _ _, fun {items' other} hother hstart => ?_⟩
  induction h generalizing items' other with
  | operand node =>
    cases hother with
    | operand => exact Nat.le_refl 1
    | chain hoperator _ =>
      obtain ⟨_, hstart⟩ := List.cons_prefix_cons.mp hstart
      cases rest with
      | nil => exact absurd (List.prefix_nil.mp hstart) (List.cons_ne_nil _ _)
      | cons node others =>
        obtain ⟨rfl, _⟩ := List.cons_prefix_cons.mp hstart
        rw [hrest _ rfl] at hoperator
        cases hoperator
  | chain _ _ ih =>
    cases hother with
    | operand => exact Nat.succ_le_succ (Nat.zero_le _)
    | chain _ hlater =>
      obtain ⟨_, hstart⟩ := List.cons_prefix_cons.mp hstart
      obtain ⟨_, hstart⟩ := List.cons_prefix_cons.mp hstart
      exact Nat.succ_le_succ (Nat.succ_le_succ (ih hlater hstart))

theorem Alternates.ne_nil (h : Alternates items phrase) : phrase ≠ [] := by
  cases h <;> exact List.cons_ne_nil _ _

theorem Alternates.unique (h : Alternates items phrase) (h' : Alternates items' phrase) :
    items = items' := by
  induction h generalizing items' with
  | operand node =>
    cases h'
    rfl
  | chain hoperator _ ih =>
    cases h' with
    | chain hoperator' hlater =>
      cases hoperator.symm.trans hoperator'
      rw [ih hlater]

/-- Between the operands there is one operator less. -/
theorem Alternates.odd (h : Alternates items phrase) : phrase.length % 2 = 1 := by
  induction h with
  | operand node => rfl
  | chain _ _ ih =>
    rw [List.length_cons, List.length_cons]
    omega

theorem Alternates.opens_self (h : Alternates items phrase) : Opens items phrase phrase :=
  ⟨h, List.prefix_refl _, fun _ hstart => hstart.length_le⟩

/-- With one operator behind it a phrase is no longer. -/
theorem Alternates.opens_dangling (h : Alternates items phrase) (operator : Node) :
    Opens items phrase (phrase ++ [operator]) := by
  refine ⟨h, List.prefix_append _ _, fun hother hstart => ?_⟩
  have hlength := hstart.length_le
  rw [List.length_append, List.length_singleton] at hlength
  have hodd := h.odd
  have hodd' := hother.odd
  omega

/-- Behind the longest phrase no operator stands with another node behind it. -/
theorem Opens.between?_eq_none {node : Node}
    (h : Opens items phrase (phrase ++ operator :: node :: rest)) : operator.between? = none := by
  cases hoperator : operator.between? with
  | none => rfl
  | some symbol =>
    have hlonger := h.longest (h.alternates.append hoperator (.operand node)) (by simp)
    rw [List.length_append] at hlonger
    exact absurd hlonger (by simp)

/-- There is one longest phrase. -/
theorem Opens.unique (h : Opens items phrase values) (h' : Opens items' other values) :
    phrase = other ∧ items = items' := by
  have hsame : phrase = other :=
    List.IsPrefix.eq_of_length
      (List.prefix_of_prefix_length_le h.start h'.start (h'.longest h.alternates h.start))
      (Nat.le_antisymm (h'.longest h.alternates h.start) (h.longest h'.alternates h'.start))
  subst hsame
  exact ⟨rfl, h.alternates.unique h'.alternates⟩

end Phrases

/-! ## Arrangement -/

/-- The operator at the top of a tree; none for an operand. -/
def top? : Operation → Option String
  | .operand _ => none
  | .join symbol _ _ => some symbol

section Arrangement

variable (table : String → Int × Associativity)

/-- No operator has one directly below it that binds less tightly. -/
def Ordered : Operation → Prop
  | .operand _ => True
  | .join symbol left right =>
    (∀ below ∈ left.top?, (table symbol).1 ≤ (table below).1) ∧
      (∀ below ∈ right.top?, (table symbol).1 ≤ (table below).1) ∧ left.Ordered ∧ right.Ordered

/-- Of two operators of one precedence directly below each other, the lower one stands on the left
    and associates to the left, or it stands on the right and the upper one
    associates to the right. -/
def Associates : Operation → Prop
  | .operand _ => True
  | .join symbol left right =>
    (∀ below ∈ left.top?, (table below).1 = (table symbol).1 → (table below).2 = .left) ∧
      (∀ below ∈ right.top?, (table below).1 = (table symbol).1 → (table symbol).2 = .right) ∧
        left.Associates ∧ right.Associates

/-- Operators as they are climbed: at the greatest precedence, where nothing binds more tightly,
    they all associate to the right. -/
def capped (symbol : String) : Int × Associativity :=
  ((table symbol).1, if (table symbol).1 = Word.greatest then .right else (table symbol).2)

/-- What is remembered of the operator at the top of a left side. -/
def memory : Operation → Option (Int × String)
  | .operand _ => none
  | .join symbol _ _ => if (table symbol).2 = .none then some ((table symbol).1, symbol) else none

/-- The sequence does not go on with an operator that binds at least as tightly as `minimum`. -/
def Stops (minimum : Int) (rest : List Node) : Prop :=
  ∀ node ∈ rest.head?, ∀ symbol ∈ node.between?, (table symbol).1 < minimum

/-- The sequence does not go on with an operator that belongs to the right side of
    the operator at the top. -/
def Waits (tree : Operation) (rest : List Node) : Prop :=
  ∀ top ∈ tree.top?, Stops table (rightMinimum (table top).1 (table top).2) rest

end Arrangement

section Arranged

variable {table : String → Int × Associativity} {symbol below : String} {left right : Operation}
  {rest : List Node}

theorem rightMinimum_eq (hword : (table symbol).1 ≤ Word.greatest) :
    rightMinimum (table symbol).1 (table symbol).2 =
      if (capped table symbol).2 = .right then (table symbol).1 else (table symbol).1 + 1 := by
  unfold capped
  cases hassociates : (table symbol).2 <;> by_cases htop : (table symbol).1 = Word.greatest <;>
    simp [rightMinimum, htop] <;> omega

/-- What binds tightly enough for the right side of an operator may stand below it there. -/
theorem rightMinimum_le_iff (hword : (table symbol).1 ≤ Word.greatest) :
    rightMinimum (table symbol).1 (table symbol).2 ≤ (table below).1 ↔
      (table symbol).1 ≤ (table below).1 ∧
        ((table below).1 = (table symbol).1 → (capped table symbol).2 = .right) := by
  rw [rightMinimum_eq hword]
  by_cases hright : (capped table symbol).2 = .right
  · simp [hright]
  · simp only [hright, if_false, imp_false]
    omega

theorem le_rightMinimum (hword : (table symbol).1 ≤ Word.greatest) :
    (table symbol).1 ≤ rightMinimum (table symbol).1 (table symbol).2 := by
  rw [rightMinimum_eq hword]
  split <;> omega

theorem filter_memory_eq_none_iff :
    (left.memory table).filter (fun last => last.1 == (table symbol).1) = none ↔
      ∀ below ∈ left.top?, (table below).1 = (table symbol).1 → (table below).2 ≠ .none := by
  cases left with
  | operand node => simp [memory, top?]
  | join top l r =>
    by_cases hassociates : (table top).2 = .none <;> simp [memory, top?, hassociates]

/-- An operator does not belong to the right side of one below it, and does not chain it, if it may
    stand above it as a left side. -/
theorem lt_rightMinimum_iff (hword : (table below).1 ≤ Word.greatest) :
    ((table symbol).1 < rightMinimum (table below).1 (table below).2 ∧
        ((table below).1 = (table symbol).1 → (table below).2 ≠ .none)) ↔
      (table symbol).1 ≤ (table below).1 ∧
        ((table below).1 = (table symbol).1 → (capped table below).2 = .left) := by
  rw [rightMinimum_eq hword]
  by_cases hsame : (table below).1 = (table symbol).1
  · unfold capped
    by_cases htop : (table below).1 = Word.greatest
    · simp [htop, ← hsame]
    · have hlt : (table below).1 < (table below).1 + 1 := by omega
      cases hassociates : (table below).2 <;> simp [htop, ← hsame, hlt]
  · simp only [hsame, false_implies, and_true]
    split <;> omega

/-- An operator is taken up behind a left side exactly if it may stand above it. -/
theorem waits_iff (hwords : ∀ symbol, (table symbol).1 ≤ Word.greatest) {node : Node}
    (hnode : node.between? = some symbol) :
    (left.Waits table (node :: rest) ∧
        (left.memory table).filter (fun last => last.1 == (table symbol).1) = none) ↔
      ∀ below ∈ left.top?, (table symbol).1 ≤ (table below).1 ∧
        ((table below).1 = (table symbol).1 → (capped table below).2 = .left) := by
  have hwaits : left.Waits table (node :: rest) ↔
      ∀ below ∈ left.top?, (table symbol).1 < rightMinimum (table below).1 (table below).2 := by
    simp [Waits, Stops, hnode]
  rw [hwaits, filter_memory_eq_none_iff]
  constructor
  · exact fun h below hbelow =>
      (lt_rightMinimum_iff (hwords below)).mp ⟨h.1 below hbelow, h.2 below hbelow⟩
  · exact fun h =>
      ⟨fun below hbelow => ((lt_rightMinimum_iff (hwords below)).mpr (h below hbelow)).1,
      fun below hbelow => ((lt_rightMinimum_iff (hwords below)).mpr (h below hbelow)).2⟩

/-- A tree is arranged, by the precedence and associativity of its operators as they are climbed. -/
def Arranged (table : String → Int × Associativity) (tree : Operation) : Prop :=
  tree.Ordered table ∧ tree.Associates (capped table)

theorem arranged_join (hwords : ∀ symbol, (table symbol).1 ≤ Word.greatest) :
    Arranged table (.join symbol left right) ↔
      (∀ below ∈ left.top?, (table symbol).1 ≤ (table below).1 ∧
        ((table below).1 = (table symbol).1 → (capped table below).2 = .left)) ∧
      (∀ below ∈ right.top?, rightMinimum (table symbol).1 (table symbol).2 ≤ (table below).1) ∧
      Arranged table left ∧ Arranged table right := by
  simp only [rightMinimum_le_iff (hwords symbol)]
  constructor
  · rintro ⟨⟨hl, hr, hleft, hright⟩, hl', hr', hleft', hright'⟩
    exact ⟨fun below h => ⟨hl below h, hl' below h⟩, fun below h => ⟨hr below h, hr' below h⟩,
      ⟨hleft, hleft'⟩, ⟨hright, hright'⟩⟩
  · rintro ⟨hl, hr, ⟨hleft, hleft'⟩, ⟨hright, hright'⟩⟩
    exact ⟨⟨fun below h => (hl below h).1, fun below h => (hr below h).1, hleft, hright⟩,
      fun below h => (hl below h).2, fun below h => (hr below h).2, hleft', hright'⟩

end Arranged

/-! ## Climbing -/

section Climbing

variable {table : String → Int × Associativity} {fuel : Nat} {minimum : Int}
  {symbol : String} {node : Node}
  {left tree : Operation} {last : Option (Int × String)} {values rest : List Node}

theorem stops_nil : Stops table minimum [] := fun _ h => absurd h.symm (Option.some_ne_none _)

/-- A sequence that does not stop goes on with an operator. -/
theorem exists_of_not_stops (h : ¬Stops table minimum rest) :
    ∃ node others symbol, rest = node :: others ∧ node.between? = some symbol ∧
      minimum ≤ (table symbol).1 := by
  cases rest with
  | nil => exact absurd stops_nil h
  | cons node others =>
    cases hnode : node.between? with
    | none => exact absurd (by simp [Stops, hnode]) h
    | some symbol =>
      have hle : ¬(table symbol).1 < minimum := fun hlt => h (by simpa [Stops, hnode] using hlt)
      exact ⟨node, others, symbol, rfl, hnode, Int.not_lt.mp hle⟩

theorem extend_of_stops (h : Stops table minimum rest) :
    extend table fuel minimum left last rest = .ok (left, rest) := by
  cases fuel with
  | zero => rfl
  | succ fuel =>
    cases rest with
    | nil => rfl
    | cons node others =>
      rw [extend]
      cases hnode : node.between? with
      | none => rfl
      | some symbol => exact if_pos (h node rfl symbol hnode)

theorem climb_nil : climb table fuel minimum [] = .ok (none, []) := by
  cases fuel <;> rfl

theorem climb_cons : climb table (fuel + 1) minimum (node :: rest) =
    (extend table fuel minimum (.operand node) none rest).map fun extended =>
      (some extended.1, extended.2) := by
  rw [climb]
  cases extend table fuel minimum (operand node) none rest <;> rfl

theorem extend_of_chained (hnode : node.between? = some symbol) (hle : minimum ≤ (table symbol).1)
    {previous : Int × String}
    (hlast : last.filter (fun last => last.1 == (table symbol).1) = some previous) :
    extend table (fuel + 1) minimum left last (node :: rest) = .error previous.2 := by
  rw [extend, hnode]
  dsimp only
  rw [if_neg (Int.not_lt.mpr hle)]
  rw [hlast]

theorem extend_of_fresh (hnode : node.between? = some symbol) (hle : minimum ≤ (table symbol).1)
    (hlast : last.filter (fun last => last.1 == (table symbol).1) = none) :
    extend table (fuel + 1) minimum left last (node :: rest) =
      (climb table fuel (rightMinimum (table symbol).1 (table symbol).2) rest).bind fun climbed =>
        climbed.1.elim (.ok (left, climbed.2)) fun right =>
          extend table fuel minimum (.join symbol left right)
            (memory table (.join symbol left right)) climbed.2 := by
  rw [extend, hnode]
  dsimp only
  rw [if_neg (Int.not_lt.mpr hle)]
  rw [hlast]
  dsimp only
  cases climb table fuel (rightMinimum (table symbol).1 (table symbol).2) rest with
  | error previous => rfl
  | ok climbed => rcases climbed with ⟨_ | right, others⟩ <;> rfl

/-- A tree that may stand where so much is asked for. -/
structure Fits (table : String → Int × Associativity) (minimum : Int)
    (tree : Operation) : Prop where
  arranged : Arranged table tree
  tight : ∀ top ∈ tree.top?, minimum ≤ (table top).1

theorem fits_operand (minimum : Int) (node : Node) : Fits table minimum (.operand node) :=
  ⟨⟨trivial, trivial⟩, fun _ h => absurd h.symm (Option.some_ne_none _)⟩

/-- A tree stands for the start of a sequence.  A last operator without an operand behind it is left
    out; with one, whatever it is, the whole could have been arranged. -/
def Covers (table : String → Int × Associativity) (minimum : Int) (tree : Operation)
    (values rest : List Node) : Prop :=
  ∃ phrase, Alternates tree.inOrder phrase ∧
    (values = phrase ++ rest ∨
      ∃ operator symbol, operator.between? = some symbol ∧
      values = phrase ++ [operator] ∧ rest = [] ∧
        ∀ node, ∃ whole, Fits table minimum whole ∧
          whole.inOrder = tree.inOrder ++ [.operator symbol, .operand node])

theorem Covers.length_le (h : tree.Covers table minimum values rest) :
    rest.length ≤ values.length := by
  obtain ⟨phrase, _, rfl | ⟨_, _, _, rfl, rfl, _⟩⟩ := h <;> simp

/-- What climbing gives. -/
structure Climbed (table : String → Int × Associativity) (minimum : Int) (values : List Node)
    (tree : Operation) (rest : List Node) : Prop where
  fits : Fits table minimum tree
  covers : tree.Covers table minimum values rest
  stops : Stops table minimum rest

/-- How far climbing has come when a left side is extended. -/
structure Climbing (table : String → Int × Associativity) (minimum : Int) (values : List Node)
    (left : Operation) (last : Option (Int × String)) (rest : List Node) : Prop where
  fits : Fits table minimum left
  covers : left.Covers table minimum values rest
  waits : left.Waits table rest
  remembers : last = left.memory table

section Next

variable (hwords : ∀ symbol, (table symbol).1 ≤ Word.greatest)
  (h : Climbing table minimum values left last (node :: rest)) (hnode : node.between? = some symbol)
  (hle : minimum ≤ (table symbol).1)
  (hlast : last.filter (fun last => last.1 == (table symbol).1) = none)

include hwords h hnode hle hlast

/-- The next operator joins a left side to whatever may stand behind it. -/
theorem Climbing.fits_join {right : Operation}
    (hright : Fits table (rightMinimum (table symbol).1 (table symbol).2) right) :
    Fits table minimum (.join symbol left right) where
  arranged := (arranged_join hwords).mpr
    ⟨(waits_iff hwords hnode).mp ⟨h.waits, h.remembers ▸ hlast⟩, hright.tight,
      h.fits.arranged, hright.arranged⟩
  tight top htop := by
    cases htop
    exact hle

theorem Climbing.join {right : Operation} {others : List Node}
    (hright : Climbed table (rightMinimum (table symbol).1 (table symbol).2) rest right others) :
    Climbing table minimum values (.join symbol left right)
      (memory table (.join symbol left right)) others where
  fits := h.fits_join hwords hnode hle hlast hright.fits
  covers := by
    obtain ⟨before, hbefore, rfl | ⟨_, _, _, _, hnil, _⟩⟩ := h.covers
    · obtain ⟨behind, hbehind, hrest⟩ := hright.covers
      refine ⟨before ++ node :: behind, by simpa [inOrder] using hbefore.append hnode hbehind, ?_⟩
      rcases hrest with rfl | ⟨operator, symbol', hoperator, rfl, rfl, hwhole⟩
      · exact Or.inl (by simp)
      · refine Or.inr ⟨operator, symbol', hoperator, by simp, rfl, fun node' => ?_⟩
        obtain ⟨whole, hfits, hwhole⟩ := hwhole node'
        exact ⟨.join symbol left whole,
          h.fits_join hwords hnode hle hlast hfits, by simp [inOrder, hwhole]⟩
    · cases hnil
  waits top htop := by
    cases htop
    exact hright.stops
  remembers := rfl

/-- Without an operand behind it the next operator is dropped. -/
theorem Climbing.drop (hrest : rest = []) : Climbed table minimum values left [] where
  fits := h.fits
  covers := by
    obtain ⟨before, hbefore, rfl | ⟨_, _, _, _, hnil, _⟩⟩ := h.covers
    · refine ⟨before, hbefore, Or.inr ⟨node, symbol, hnode, by rw [hrest], rfl, fun node' => ?_⟩⟩
      exact ⟨.join symbol left (.operand node'),
        h.fits_join hwords hnode hle hlast (fits_operand _ node'), by simp [inOrder]⟩
    · cases hnil
  stops := stops_nil

end Next

/-- Climbing arranges what it takes from a sequence and takes as much as there is.  Each step takes
    a node, so the fuel lasts. -/
theorem climbed_of_climb (hwords : ∀ symbol, (table symbol).1 ≤ Word.greatest) (fuel : Nat) :
    (∀ {minimum values operation rest}, values.length < fuel → values ≠ [] →
      climb table fuel minimum values = .ok (operation, rest) →
        ∃ tree, operation = some tree ∧ Climbed table minimum values tree rest) ∧
    (∀ {minimum values left last others tree rest}, others.length < fuel →
      Climbing table minimum values left last others →
      extend table fuel minimum left last others = .ok (tree, rest) →
        Climbed table minimum values tree rest) := by
  induction fuel with
  | zero => exact ⟨fun h => absurd h (Nat.not_lt_zero _), fun h => absurd h (Nat.not_lt_zero _)⟩
  | succ fuel ih =>
    obtain ⟨ihclimb, ihextend⟩ := ih
    refine ⟨fun {minimum values operation rest} hfuel hvalues h => ?_,
      fun {minimum values left last others tree rest} hfuel hclimbing h => ?_⟩
    · cases values with
      | nil => exact absurd rfl hvalues
      | cons node others =>
        obtain ⟨⟨tree, rest'⟩, hextend, h⟩ := exists_of_bind_eq_ok h
        cases h
        refine ⟨tree, rfl, ihextend (Nat.lt_of_succ_lt_succ hfuel) ?_ hextend⟩
        exact ⟨fits_operand minimum node, ⟨[node], .operand node, Or.inl rfl⟩,
          fun _ h => absurd h.symm (Option.some_ne_none _), rfl⟩
    · by_cases hstops : Stops table minimum others
      · rw [extend_of_stops hstops] at h
        cases h
        exact ⟨hclimbing.fits, hclimbing.covers, hstops⟩
      obtain ⟨node, behind, symbol, rfl, hnode, hle⟩ := exists_of_not_stops hstops
      cases hlast : last.filter (fun last => last.1 == (table symbol).1) with
      | some previous =>
        rw [extend_of_chained hnode hle hlast] at h
        cases h
      | none =>
        rw [extend_of_fresh hnode hle hlast] at h
        obtain ⟨⟨operation, rest'⟩, hclimb, h⟩ := exists_of_bind_eq_ok h
        by_cases hbehind : behind = []
        · subst hbehind
          rw [climb_nil] at hclimb
          cases hclimb
          cases h
          exact hclimbing.drop hwords hnode hle hlast rfl
        · obtain ⟨right, rfl, hright⟩ := ihclimb (Nat.lt_of_succ_lt_succ hfuel) hbehind hclimb
          refine ihextend ?_ (hclimbing.join hwords hnode hle hlast hright) h
          exact Nat.lt_of_le_of_lt hright.covers.length_le (Nat.lt_of_succ_lt_succ hfuel)

end Climbing

/-! ## Returning -/

section Returning

variable {table : String → Int × Associativity} {fuel : Nat} {minimum : Int} {node : Node}
  {tree : Operation}
  {rest : List Node}

theorem Stops.mono {greater : Int} (h : Stops table minimum rest) (hle : minimum ≤ greater) :
    Stops table greater rest :=
  fun node hnode symbol hsymbol => Int.lt_of_lt_of_le (h node hnode symbol hsymbol) hle

variable (hwords : ∀ symbol, (table symbol).1 ≤ Word.greatest)

include hwords

/-- Over the nodes of a tree that is arranged, climbing comes to that tree, and then
    goes on behind it. -/
theorem climb_over_fits (hfits : Fits table minimum tree)
    {phrase : List Node} (hphrase : Alternates tree.inOrder phrase) (hwaits : tree.Waits table rest)
    (hfuel : (phrase ++ rest).length < fuel) :
    ∃ fuel', rest.length < fuel' ∧ climb table fuel minimum (phrase ++ rest) =
      (extend table fuel' minimum tree (tree.memory table) rest).map fun extended =>
        (some extended.1, extended.2) := by
  induction tree generalizing minimum phrase rest fuel with
  | operand node =>
    cases hphrase
    cases fuel with
    | zero => exact absurd hfuel (Nat.not_lt_zero _)
    | succ fuel =>
      exact ⟨fuel, Nat.lt_of_succ_lt_succ hfuel, climb_cons⟩
  | join symbol left right ihleft ihright =>
    obtain ⟨hbelow, hbehind, hleft, hright⟩ := (arranged_join hwords).mp hfits.arranged
    have hsplit : Alternates (left.inOrder ++ .operator symbol :: right.inOrder) phrase := by
      simpa [inOrder] using hphrase
    obtain ⟨before, operator, behind, rfl, hbefore, hoperator, hphrase'⟩ := hsplit.split
    have hle : minimum ≤ (table symbol).1 := hfits.tight symbol rfl
    have hsame : before ++ operator :: behind ++ rest = before ++
      operator :: (behind ++ rest) := by simp
    rw [hsame] at hfuel ⊢
    -- the left side first, which the operator puts an end to
    obtain ⟨hwaits', hfresh⟩ := (waits_iff hwords hoperator).mpr hbelow
    obtain ⟨fuel₁, hfuel₁, hclimb⟩ :=
      ihleft ⟨hleft, fun top htop => Int.le_trans hle (hbelow top htop).1⟩ hbefore hwaits' hfuel
    cases fuel₁ with
    | zero => exact absurd hfuel₁ (Nat.not_lt_zero _)
    | succ fuel₁ =>
      have hfuel₁ : (behind ++ rest).length < fuel₁ := Nat.lt_of_succ_lt_succ hfuel₁
      have hstops : Stops table (rightMinimum (table symbol).1 (table symbol).2) rest :=
        hwaits symbol rfl
      -- then the right side, which ends where the whole does
      have hends : right.Waits table rest := fun top htop =>
        hstops.mono (Int.le_trans (hbehind top htop) (le_rightMinimum (hwords top)))
      obtain ⟨fuel₂, _, hclimb'⟩ := ihright ⟨hright, hbehind⟩ hphrase' hends hfuel₁
      rw [extend_of_stops hstops] at hclimb'
      refine ⟨fuel₁, Nat.lt_of_le_of_lt (by simp) hfuel₁, ?_⟩
      rw [hclimb, extend_of_fresh hoperator hle hfresh, hclimb']
      rfl

/-- What fits is what climbing its nodes gives. -/
theorem climb_of_fits (hfits : Fits table minimum tree)
    {phrase : List Node} (hphrase : Alternates tree.inOrder phrase)
    (hstops : Stops table minimum rest) (hfuel : (phrase ++ rest).length < fuel) :
      climb table fuel minimum (phrase ++ rest) = .ok (some tree, rest) := by
  have hwaits : tree.Waits table rest := fun top htop =>
    hstops.mono (Int.le_trans (hfits.tight top htop) (le_rightMinimum (hwords top)))
  obtain ⟨fuel', _, hclimb⟩ := climb_over_fits hwords hfits hphrase hwaits hfuel
  rw [hclimb, extend_of_stops hstops]
  rfl

/-- Without the last operand of what fits, climbing still comes to its end. -/
theorem exists_climb_of_fits (hfits : Fits table minimum tree)
    {phrase : List Node} (hphrase : Alternates tree.inOrder (phrase ++ [node])) (hne : phrase ≠ [])
    (hfuel : phrase.length < fuel) :
      ∃ short, climb table fuel minimum phrase = .ok (some short, []) := by
  induction tree generalizing minimum phrase fuel with
  | operand other =>
    generalize hwhole : phrase ++ [node] = whole at hphrase
    cases hphrase
    obtain ⟨hnil, _⟩ | ⟨_, hnil⟩ := List.append_eq_singleton_iff.mp hwhole
    · exact absurd hnil hne
    · cases hnil
  | join symbol left right _ ihright =>
    obtain ⟨hbelow, hbehind, hleft, hright⟩ := (arranged_join hwords).mp hfits.arranged
    have hsplit : Alternates (left.inOrder ++ .operator symbol :: right.inOrder)
      (phrase ++ [node]) := by
      simpa [inOrder] using hphrase
    obtain ⟨before, operator, whole, hwhole, hbefore, hoperator, hphrase'⟩ := hsplit.split
    obtain ⟨behind, last, rfl⟩ : ∃ behind last, whole = behind ++ [last] :=
      ⟨_, _, (List.dropLast_concat_getLast hphrase'.ne_nil).symm⟩
    obtain ⟨rfl, hlast⟩ : phrase = before ++ operator :: behind ∧ [node] = [last] :=
      List.append_inj' (hwhole.trans (by simp)) rfl
    cases hlast
    have hle : minimum ≤ (table symbol).1 := hfits.tight symbol rfl
    obtain ⟨hwaits, hfresh⟩ := (waits_iff hwords hoperator).mpr hbelow
    obtain ⟨fuel₁, hfuel₁, hclimb⟩ := climb_over_fits hwords
      ⟨hleft, fun top htop => Int.le_trans hle (hbelow top htop).1⟩ hbefore hwaits hfuel
    cases fuel₁ with
    | zero => exact absurd hfuel₁ (Nat.not_lt_zero _)
    | succ fuel₁ =>
      rw [hclimb, extend_of_fresh hoperator hle hfresh]
      by_cases hnil : behind = []
      · subst hnil
        rw [climb_nil]
        exact ⟨left, rfl⟩
      · obtain ⟨short, hshort⟩ :=
          ihright ⟨hright, hbehind⟩ hphrase' hnil (Nat.lt_of_succ_lt_succ hfuel₁)
        rw [hshort]
        refine ⟨.join symbol left short, ?_⟩
        change Except.map _ (extend table fuel₁ minimum (.join symbol left short) _ []) = _
        rw [extend_of_stops stops_nil]
        rfl

end Returning

/-! ## Sequences -/

/-- Precedences are words, whether declared or built in. -/
theorem precedenceIn_word (lookup : Lookup) (scope : Handle) (symbol : String) :
    Word.least ≤ (precedenceIn lookup scope symbol).1 ∧
      (precedenceIn lookup scope symbol).1 ≤ Word.greatest := by
  unfold precedenceIn
  split
  · next operator _ =>
      exact ⟨operator.precedence.le_toInt, Int.le_of_lt_add_one operator.precedence.toInt_lt⟩
  · unfold Arithmetic.precedence
    split <;> decide

section Sequences

variable {table : String → Int × Associativity}
  (hwords : ∀ symbol, Word.least ≤ (table symbol).1 ∧ (table symbol).1 ≤ Word.greatest)
  {values rest : List Node} {tree : Operation}

include hwords

theorem stops_least_iff : Stops table Word.least rest ↔ ∀ node ∈ rest.head?,
    node.between? = none := by
  constructor
  · intro h node hnode
    cases hsymbol : node.between? with
    | none => rfl
    | some symbol => exact absurd (h node hnode symbol hsymbol) (Int.not_lt.mpr (hwords symbol).1)
  · intro h node hnode symbol hsymbol
    rw [h node hnode] at hsymbol
    cases hsymbol

theorem fits_least_iff : Fits table Word.least tree ↔ tree.Ordered table ∧
    tree.Associates (capped table) :=
  ⟨fun h => h.arranged, fun h => ⟨h, fun top _ => (hwords top).1⟩⟩

/-- What a whole sequence is climbed to. -/
theorem climbed_of_sequence {operation : Option Operation} (hvalues : values ≠ [])
    (h : climb table (values.length + 2) Word.least values = .ok (operation, rest)) :
    ∃ tree, operation = some tree ∧ Climbed table Word.least values tree rest :=
  (climbed_of_climb (fun symbol => (hwords symbol).2) _).1
    (Nat.lt_add_of_pos_right (by decide)) hvalues h

/-- With one more operand at the end, which a last operator may need, the longest phrase of a
    sequence can be arranged if the sequence is climbed. -/
theorem Climbed.exists_whole (h : Climbed table Word.least values tree rest) (node : Node) :
    ∃ (whole : Operation) (phrase : List Node),
      whole.Ordered table ∧ whole.Associates (capped table) ∧
      Opens whole.inOrder phrase (values ++ [node]) := by
  obtain ⟨phrase, hphrase, rfl | ⟨operator, symbol, hoperator, rfl, rfl, hwhole⟩⟩ := h.covers
  · refine ⟨tree, phrase, h.fits.arranged.1, h.fits.arranged.2, ?_⟩
    cases rest with
    | nil => simpa using hphrase.opens_dangling node
    | cons first others =>
      rw [List.append_assoc]
      refine hphrase.opens fun first' hfirst' => ?_
      cases hfirst'
      exact (stops_least_iff hwords).mp h.stops first rfl
  · obtain ⟨whole, hfits, hwhole⟩ := hwhole node
    refine ⟨whole, phrase ++ [operator] ++ [node], hfits.arranged.1, hfits.arranged.2, ?_⟩
    have halternates := hphrase.append hoperator (.operand node)
    rw [hwhole]
    simpa using halternates.opens_self

/-- What can be arranged is climbed, also without its last operand. -/
theorem exists_climb_of_opens {items : List Item} {phrase : List Node} {node : Node}
    (hvalues : values ≠ [])
    (hopens : Opens items phrase (values ++ [node])) (hitems : tree.inOrder = items)
    (htree : tree.Ordered table ∧ tree.Associates (capped table)) :
    ∃ short rest, climb table (values.length + 2) Word.least values = .ok (some short, rest) := by
  have hgreatest : ∀ symbol, (table symbol).1 ≤ Word.greatest := fun symbol => (hwords symbol).2
  have hfits : Fits table Word.least tree := (fits_least_iff hwords).mpr htree
  subst hitems
  rcases List.prefix_concat_iff.mp (by simpa using hopens.start) with rfl | ⟨rest, rfl⟩
  · obtain ⟨short, hshort⟩ := exists_climb_of_fits hgreatest hfits hopens.alternates hvalues
      (Nat.lt_add_of_pos_right (by decide : 0 < 2))
    exact ⟨short, [], hshort⟩
  · refine ⟨tree, rest,
      climb_of_fits hgreatest hfits hopens.alternates ?_ (Nat.lt_add_of_pos_right (by decide))⟩
    refine (stops_least_iff hwords).mpr fun operator hoperator => ?_
    cases rest with
    | nil => cases hoperator
    | cons first others =>
      cases hoperator
      rw [List.append_assoc] at hopens
      cases others with
      | nil => exact hopens.between?_eq_none
      | cons second others => exact hopens.between?_eq_none

end Sequences

/-- Climbing a sequence gives a tree of its longest phrase, from left to right and with nothing left
    out; what stands behind the phrase is left over, but for a last operator without an operand.  No
    operator has one below it that binds less tightly. -/
theorem climb_orders_phrase (lookup : Lookup) (scope : Handle) (values : List Node)
    {tree : Operation} {rest : List Node}
    (h : climb (precedenceIn lookup scope) (values.length + 2) Word.least values =
      .ok (some tree, rest)) :
    (∃ phrase, Opens tree.inOrder phrase values ∧ Leaves phrase values rest) ∧
      tree.Ordered (precedenceIn lookup scope) := by
  have hwords := precedenceIn_word lookup scope
  by_cases hvalues : values = []
  · rw [hvalues, climb_nil] at h
    cases h
  obtain ⟨_, ⟨⟩, hclimbed⟩ := climbed_of_sequence hwords hvalues h
  refine ⟨?_, hclimbed.fits.arranged.1⟩
  have hstops := (stops_least_iff hwords).mp hclimbed.stops
  obtain ⟨phrase, hphrase, rfl | ⟨operator, symbol, hoperator, rfl, rfl, _⟩⟩ := hclimbed.covers
  · exact ⟨phrase, hphrase.opens hstops, Or.inl ⟨rfl, hstops⟩⟩
  · exact ⟨phrase, hphrase.opens_dangling operator,
      Or.inr ⟨operator, by simp [hoperator], rfl, rfl⟩⟩

/-- A node that stands between operands. -/
def between (symbol : String) : Node := .bare (.operator .between symbol)

def letter (name : String) : Node := .bare (.identifier name)

/-- A namespace in which one operator is declared. -/
def declaring (symbol : String) (precedence : Int64) (associativity : Associativity) : Lookup :=
  let declared : Operator := ⟨["infix"], associativity, precedence⟩
  let here : Composite :=
    { Composite.fresh none (.ofKind .namespace) with
      operators := Assoc.empty.put symbol [declared] }
  ⟨(Store.empty.add here).1, false⟩

/-- In `a = b - c * d -`, with a `-` that binds more tightly than `*`, the last
    operator is dropped. -/
theorem climb_orders_phrase_dangling :
    let lookup := declaring "-" 200 .right
    let values :=
      [letter "a", between "=", letter "b", between "-", letter "c", between "*",
        letter "d", between "-"]
    let tree : Operation := .join "=" (.operand (letter "a"))
      (.join "*" (.join "-" (.operand (letter "b")) (.operand (letter "c")))
        (.operand (letter "d")))
    climb (precedenceIn lookup ⟨0, 0⟩) (values.length + 2) Word.least values = .ok (some tree, []) ∧
      (∃ phrase, Opens tree.inOrder phrase values ∧ Leaves phrase values []) ∧
      tree.Ordered (precedenceIn lookup ⟨0, 0⟩) := by
  intro lookup values tree
  have h : climb (precedenceIn lookup ⟨0, 0⟩) (values.length + 2) Word.least values =
    .ok (some tree, []) := rfl
  exact ⟨h, climb_orders_phrase lookup ⟨0, 0⟩ values h⟩

/-- Climbing respects associativity below the greatest precedence, where every operator associates
    to the right.  It fails exactly if the longest phrase cannot be arranged so, a last operator
    being taken with whatever operand would stand behind it. -/
theorem climb_associates_or_fails (lookup : Lookup) (scope : Handle)
    (values : List Node) {node : Node}
    {items : List Item} {phrase : List Node} (hopens : Opens items phrase (values ++ [node])) :
    (∀ tree rest, climb (precedenceIn lookup scope) (values.length + 2) Word.least values =
      .ok (some tree, rest) → tree.Associates (capped (precedenceIn lookup scope))) ∧
    ((∃ symbol,
      climb (precedenceIn lookup scope) (values.length + 2) Word.least values = .error symbol) ↔
      ¬∃ tree : Operation, tree.inOrder = items ∧ tree.Ordered (precedenceIn lookup scope) ∧
        tree.Associates (capped (precedenceIn lookup scope))) := by
  have hwords := precedenceIn_word lookup scope
  by_cases hvalues : values = []
  · subst hvalues
    rw [climb_nil]
    have hoperand := ((Alternates.operand node).opens_self.unique hopens).2
    refine ⟨fun _ _ h => (by cases h), ?_, fun hnone =>
      absurd ⟨.operand node, hoperand, trivial, trivial⟩ hnone⟩
    rintro ⟨_, h⟩
    cases h
  refine ⟨fun tree rest h => ?_, ?_, fun hnone => ?_⟩
  · obtain ⟨_, ⟨⟩, hclimbed⟩ := climbed_of_sequence hwords hvalues h
    exact hclimbed.fits.arranged.2
  · rintro ⟨symbol, hfails⟩ ⟨tree, hitems, htree⟩
    obtain ⟨short, rest, hclimb⟩ := exists_climb_of_opens hwords hvalues hopens hitems htree
    cases hfails.symm.trans hclimb
  · cases hclimb : climb (precedenceIn lookup scope) (values.length + 2) Word.least values with
    | error symbol => exact ⟨symbol, rfl⟩
    | ok climbed =>
      obtain ⟨tree, _, hclimbed⟩ := climbed_of_sequence hwords hvalues hclimb
      obtain ⟨whole, phrase', hordered, hassociates, hopens'⟩ := hclimbed.exists_whole hwords node
      exact absurd ⟨whole, (hopens'.unique hopens).2, hordered, hassociates⟩ hnone

/-- `a == b ==` cannot be climbed: with an operand behind the last operator it could not be
    arranged. -/
theorem climb_associates_or_fails_dangling :
    let lookup := declaring "-" 200 .right
    let values := [letter "a", between "==", letter "b", between "=="]
    let items : List Item :=
      [.operand (letter "a"), .operator "==", .operand (letter "b"), .operator "==",
        .operand (letter "c")]
    Opens items (values ++ [letter "c"]) (values ++ [letter "c"]) ∧
      climb (precedenceIn lookup ⟨0, 0⟩) (values.length + 2) Word.least values = .error "==" ∧
      ¬∃ tree : Operation, tree.inOrder = items ∧ tree.Ordered (precedenceIn lookup ⟨0, 0⟩) ∧
        tree.Associates (capped (precedenceIn lookup ⟨0, 0⟩)) := by
  intro lookup values items
  have hopens : Opens items (values ++ [letter "c"]) (values ++ [letter "c"]) :=
    (Alternates.chain rfl (.chain rfl (.operand (letter "c")))).opens_self
  have hfails : climb (precedenceIn lookup ⟨0, 0⟩) (values.length + 2) Word.least values =
    .error "==" := rfl
  exact ⟨hopens, hfails,
    (climb_associates_or_fails lookup ⟨0, 0⟩ values hopens).2.mp ⟨"==", hfails⟩⟩

/-- At the greatest precedence `a - b - c` is taken as `a - (b - c)`, whether `-` associates to the
    left or not at all; and `a == b ==` cannot be climbed although `a == b` can be arranged. -/
theorem associativity_lost_at_greatest :
    let values := [letter "a", between "-", letter "b", between "-", letter "c"]
    let tree : Operation :=
      .join "-" (.operand (letter "a")) (.join "-" (.operand (letter "b")) (.operand (letter "c")))
    let table (associativity : Associativity) :=
      precedenceIn (declaring "-" 9223372036854775807 associativity) ⟨0, 0⟩
    (climb (table .left) (values.length + 2) Word.least values = .ok (some tree, []) ∧
      ¬tree.Associates (table .left)) ∧
    (climb (table .none) (values.length + 2) Word.least values = .ok (some tree, []) ∧
      ¬tree.Associates (table .none)) ∧
    (climb (table .left) 6 Word.least [letter "a", between "==", letter "b", between "=="] =
      .error "==" ∧ ∃ tree : Operation, Opens tree.inOrder [letter "a", between "==", letter "b"]
          [letter "a", between "==", letter "b", between "=="] ∧
        tree.Ordered (table .left) ∧ tree.Associates (table .left)) := by
  intro values tree table
  refine ⟨⟨rfl, fun h => ?_⟩, ⟨rfl, fun h => ?_⟩, rfl, ?_⟩
  · exact absurd (h.2.1 "-" rfl rfl) (by decide)
  · exact absurd (h.2.1 "-" rfl rfl) (by decide)
  · refine ⟨.join "==" (.operand (letter "a")) (.operand (letter "b")), ?_, ?_, ?_⟩
    · exact (Alternates.chain rfl (.operand (letter "b"))).opens_dangling (between "==")
    · simp [Ordered, top?]
    · simp [Associates, top?]

end CompositeGraph.Operation
