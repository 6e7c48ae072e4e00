/-
  BRANCHES: types with their children in place.

  A type is a flat list of parts, each with the index of the one it stands under, and comparing two
  types goes back and forth in these lists.  A branch is a part with its children in place, so
  acceptance between branches is a recursion on the expected one.  What is given is accepted if each
  of its alternatives is, and an alternative is no union; so what acceptance asks for is said by the
  sort of part that is expected: a union, a function, a group of members, or a leaf.

    1. THE TREE.      `Branch`, what is read in it, and its flat type.
    2. ACCEPTANCE.    `Branch.accepts`.
    3. PARTS.         Induction over branches, parts that all have a property, alternatives.
    4. RULES.         What acceptance asks for, by the sort of the expected part.
    5. DETACHED.      A branch with nothing said about where its parts stand;
                      acceptance does not look there.
-/
import Mathlib.Data.List.Forall2
import CompositeGraph.TypeTree.Accepts

namespace CompositeGraph

/-! ## The tree -/

/-- A part with its children in place. -/
inductive Branch where
  | node (part : TypePart) (children : List Branch)

namespace Branch

def part : Branch → TypePart
  | .node part _ => part

def children : Branch → List Branch
  | .node _ children => children

mutual

/-- Appends the parts of a branch, each before its children, under a parent. -/
def flattenInto : Branch → Option Nat → List TypePart → List TypePart
  | .node part children, parent, out =>
    flattenUnder children out.length (out ++ [{ part with parent := parent }])

def flattenUnder : List Branch → Nat → List TypePart → List TypePart
  | [], _, out => out
  | branch :: rest, parent, out => flattenUnder rest parent (flattenInto branch (some parent) out)

end

/-- The flat type of a branch. -/
def flatten (branch : Branch) : TypeTree := ⟨branch.flattenInto none []⟩

mutual

/-- The children of the first part with a flag, a part before its children. -/
def flagged? (flag : TypePart → Bool) : Branch → Option (List Branch)
  | .node part children => if flag part then some children else flaggedIn? flag children

def flaggedIn? (flag : TypePart → Bool) : List Branch → Option (List Branch)
  | [] => none
  | branch :: rest => (flagged? flag branch).or (flaggedIn? flag rest)

end

/-- The parameters of a function type. -/
def parameters (branch : Branch) : List Branch := (branch.flagged? (·.parameters)).getD []

/-- Whether a child of a function type is its return type. -/
def isReturn (branch : Branch) : Bool := !branch.part.parameters && !branch.part.genericParameters

mutual

/-- The ways a type can be given: the members of unions, of unions in unions and so on. -/
def alternatives : Branch → List Branch
  | .node part children => if part.union then alternativesIn children else [.node part children]

def alternativesIn : List Branch → List Branch
  | [] => []
  | branch :: rest => alternatives branch ++ alternativesIn rest

end

/-! ## Acceptance -/

mutual

/-- Whether the given type may stand for the expected one. -/
def accepts (lineage : Lineage) : Branch → Branch → Bool
  | .node expected children, given =>
    given.alternatives.all fun given =>
      let part := given.part
      if expected.union then acceptsAny lineage children given
      else if expected.intersection then acceptsAll lineage children given
      else if expected.inout && !part.inout then false
      else if expected.predefined == some (.composite .function) then
        expected.functionsAgree part &&
          (if expected.parameters then lockstep lineage children given.parameters
            else (parametersAccept lineage children given.parameters).getD
            given.parameters.isEmpty) &&
          returnAccepts lineage children (given.children.find? isReturn)
      else if expected.array || expected.dictionary then
        expected.array == part.array && expected.dictionary == part.dictionary &&
          lockstep lineage children given.children
      else
        expected.leafAccepts lineage part &&
          (!expected.genericArguments || lockstep lineage children given.children)
termination_by structural expected => expected

/-- Whether one of the expected types accepts the given one. -/
def acceptsAny (lineage : Lineage) : List Branch → Branch → Bool
  | [], _ => false
  | expected :: rest, given => accepts lineage expected given || acceptsAny lineage rest given
termination_by structural expected => expected

/-- Whether each of the expected types accepts the given one. -/
def acceptsAll (lineage : Lineage) : List Branch → Branch → Bool
  | [], _ => true
  | expected :: rest, given => accepts lineage expected given && acceptsAll lineage rest given
termination_by structural expected => expected

/-- Pairs expected and given types in order.  A variadic expected type takes in all given ones but
    as many as there are expected types after it. -/
def lockstep (lineage : Lineage) : List Branch → List Branch → Bool
  | [], given => given.isEmpty
  | expected :: rest, given =>
    if expected.part.variadic then
      rest.length ≤ given.length &&
        (given.take (given.length - rest.length)).all (accepts lineage expected) &&
        lockstep lineage rest (given.drop (given.length - rest.length))
    else
      match given with
      | [] => false
      | first :: given => accepts lineage expected first && lockstep lineage rest given
termination_by structural expected => expected

/-- Compares the parameters of the first part that collects them, if there is one. -/
def parametersAccept (lineage : Lineage) : List Branch → List Branch → Option Bool
  | [], _ => none
  | .node part children :: rest, given =>
    if part.parameters then some (lockstep lineage children given)
    else (parametersAccept lineage children given).or (parametersAccept lineage rest given)
termination_by structural expected => expected

/-- Compares the first expected return type with the given one; nothing to compare is fine. -/
def returnAccepts (lineage : Lineage) : List Branch → Option Branch → Bool
  | [], _ => true
  | expected :: rest, given =>
    if expected.isReturn then
      match given with
      | some given => accepts lineage expected given
      | none => true
    else returnAccepts lineage rest given
termination_by structural expected => expected

end

/-! ## Parts -/

variable {b g : Branch} {bs : List Branch} {part : TypePart} {children : List Branch}

/-- What holds of a part with its children if it holds of these holds of all branches. -/
theorem rec_children {P : Branch → Prop}
    (node : ∀ part children, (∀ b ∈ children, P b) → P (.node part children)) (b : Branch) : P b :=
  @Branch.rec P (fun bs => ∀ b ∈ bs, P b) node (fun _ hb => absurd hb List.not_mem_nil)
    (fun _ _ hb hbs => List.forall_mem_cons.mpr ⟨hb, hbs⟩) b

/-- All parts of a branch have a property. -/
inductive Every (P : TypePart → Prop) : Branch → Prop where
  | node {part : TypePart} {children : List Branch} :
    P part → (∀ b ∈ children, Every P b) → Every P (.node part children)

theorem mem_alternativesIn : g ∈ alternativesIn bs ↔ ∃ b ∈ bs, g ∈ b.alternatives := by
  induction bs with
  | nil => simp [alternativesIn]
  | cons b bs ih => simp [alternativesIn, ih]

theorem alternatives_of_union (h : part.union = true) (children : List Branch) :
    (node part children).alternatives = alternativesIn children := by
  rw [alternatives, if_pos h]

theorem alternatives_of_not_union (h : part.union = false) (children : List Branch) :
    (node part children).alternatives = [node part children] := by
  rw [alternatives, h, if_neg Bool.false_ne_true]

theorem alternatives_eq_singleton (h : b.part.union = false) : b.alternatives = [b] := by
  obtain ⟨part, children⟩ := b
  exact alternatives_of_not_union h children

/-- An alternative is no union. -/
theorem not_union_of_mem_alternatives (hg : g ∈ b.alternatives) : g.part.union = false := by
  induction b using rec_children with
  | node part children ih =>
    cases hunion : part.union with
    | true =>
      rw [alternatives_of_union hunion, mem_alternativesIn] at hg
      obtain ⟨child, hchild, hg⟩ := hg
      exact ih child hchild hg
    | false =>
      rw [alternatives_of_not_union hunion, List.mem_singleton] at hg
      rw [hg]
      exact hunion

/-! ## Rules -/

variable {lineage : Lineage} {expected given : List Branch}

/-- What is given is accepted if each of its alternatives is. -/
theorem accepts_iff_alternatives {e : Branch} :
    accepts lineage e g = true ↔ ∀ g' ∈ g.alternatives, accepts lineage e g' = true := by
  obtain ⟨part, children⟩ := e
  have hall : ∀ g' ∈ g.alternatives, g'.alternatives = [g'] :=
    fun g' hg' => alternatives_eq_singleton (not_union_of_mem_alternatives hg')
  rw [accepts, List.all_eq_true]
  refine forall₂_congr fun g' hg' => ?_
  rw [accepts, hall g' hg', List.all_cons, List.all_nil, Bool.and_true]

theorem acceptsAny_iff : acceptsAny lineage expected g = true ↔ ∃ e ∈ expected,
    accepts lineage e g = true := by
  induction expected with
  | nil => simp [acceptsAny]
  | cons e expected ih => simp [acceptsAny, ih]

theorem acceptsAll_iff : acceptsAll lineage expected g = true ↔ ∀ e ∈ expected,
    accepts lineage e g = true := by
  induction expected with
  | nil => simp [acceptsAll]
  | cons e expected ih => simp [acceptsAll, ih]

/-- A union accepts what one of its members does. -/
theorem accepts_union_iff (hunion : part.union = true) (hg : g.part.union = false) :
    accepts lineage (.node part children) g = true ↔ ∃ e ∈ children,
      accepts lineage e g = true := by
  rw [accepts, alternatives_eq_singleton hg, ← acceptsAny_iff]
  simp [hunion]

/-- Whatever is not a union accepts what is no union only with `inout` if it has it itself. -/
theorem inout_of_accepts (hunion : part.union = false) (hintersection : part.intersection = false)
    (hg : g.part.union = false) (h : accepts lineage (.node part children) g = true)
    (hinout : part.inout = true) : g.part.inout = true := by
  rw [accepts, alternatives_eq_singleton hg] at h
  cases hgiven : g.part.inout with
  | true => rfl
  | false => simp [hunion, hintersection, hinout, hgiven] at h

/-- A function is compared by its requirements, its parameters and its return type. -/
theorem accepts_function_iff (hunion : part.union = false)
    (hintersection : part.intersection = false)
    (hfunction : part.predefined = some (.composite .function)) (hg : g.part.union = false) :
    accepts lineage (.node part children) g = true ↔
      (part.inout = true → g.part.inout = true) ∧ part.functionsAgree g.part = true ∧
        (if part.parameters then lockstep lineage children g.parameters
          else (parametersAccept lineage children g.parameters).getD g.parameters.isEmpty) = true ∧
        returnAccepts lineage children (g.children.find? isReturn) = true := by
  rw [accepts, alternatives_eq_singleton hg]
  cases part.inout <;> cases hgiven :
    g.part.inout <;> simp [hunion, hintersection, hfunction, hgiven, and_assoc]

/-- A group is compared member by member. -/
theorem accepts_group_iff (hunion : part.union = false) (hintersection : part.intersection = false)
    (hfunction : part.predefined ≠ some (.composite .function))
    (hgroup : (part.array || part.dictionary) = true) (hg : g.part.union = false) :
    accepts lineage (.node part children) g = true ↔
      (part.inout = true → g.part.inout = true) ∧ part.array = g.part.array ∧
        part.dictionary = g.part.dictionary ∧
        lockstep lineage children g.children = true := by
  rw [accepts, alternatives_eq_singleton hg]
  cases part.inout <;> cases hgiven : g.part.inout <;>
    simp [hunion, hintersection, hfunction, hgroup, hgiven, and_assoc]

/-- Anything else is compared as a leaf, with its generic arguments if it has any. -/
theorem accepts_leaf_iff (hunion : part.union = false) (hintersection : part.intersection = false)
    (hfunction : part.predefined ≠ some (.composite .function))
    (hgroup : (part.array || part.dictionary) = false) (hg : g.part.union = false) :
    accepts lineage (.node part children) g = true ↔
      (part.inout = true → g.part.inout = true) ∧ part.leafAccepts lineage g.part = true ∧
        (part.genericArguments = true → lockstep lineage children g.children = true) := by
  rw [accepts, alternatives_eq_singleton hg]
  cases part.inout <;> cases hgiven : g.part.inout <;> cases part.genericArguments <;>
    simp [hunion, hintersection, hfunction, hgroup, hgiven]

theorem flaggedIn?_eq_findSome? (flag : TypePart → Bool) (bs : List Branch) :
    flaggedIn? flag bs = bs.findSome? (flagged? flag) := by
  induction bs with
  | nil => rfl
  | cons b bs ih =>
    rw [flaggedIn?, ih, List.findSome?_cons]
    cases flagged? flag b <;> rfl

/-- The expected parameters are those of the first part that collects them. -/
theorem parametersAccept_eq (expected given : List Branch) :
    parametersAccept lineage expected given =
      (flaggedIn? (·.parameters) expected).map fun parameters =>
        lockstep lineage parameters given := by
  -- Both go through the children of a part before the parts behind it.
  have hchildren : ∀ b : Branch, parametersAccept lineage b.children given =
      (flaggedIn? (·.parameters) b.children).map fun parameters =>
        lockstep lineage parameters given := by
    intro b
    induction b using rec_children with
    | node part children ih =>
      show parametersAccept lineage children given = _
      induction children with
      | nil => rfl
      | cons b rest ihrest =>
        obtain ⟨hb, hrest⟩ := List.forall_mem_cons.mp ih
        obtain ⟨part', children'⟩ := b
        rw [parametersAccept]
        show _ = (flaggedIn? (·.parameters) (node part' children' :: rest)).map _
        rw [flaggedIn?, flagged?]
        cases part'.parameters with
        | true => rfl
        | false =>
          have hrest := ihrest hrest
          simp only [Branch.children] at hb hrest
          simp only [Bool.false_eq_true, if_false]
          rw [hb, hrest]
          cases flaggedIn? (·.parameters) children' <;> rfl
  exact hchildren (.node {} expected)

/-- The return types are compared where both functions have one. -/
theorem returnAccepts_iff {given : Option Branch} :
    returnAccepts lineage expected given = true ↔
      ∀ e ∈ expected.find? isReturn, ∀ g ∈ given, accepts lineage e g = true := by
  induction expected with
  | nil => simp [returnAccepts]
  | cons e expected ih =>
    rw [List.find?_cons]
    cases hreturn : e.isReturn with
    | true => cases given <;> simp [returnAccepts, hreturn]
    | false =>
      have hrest : returnAccepts lineage (e :: expected) given =
        returnAccepts lineage expected given := by
        cases given <;> simp [returnAccepts, hreturn]
      rw [hrest]
      exact ih

theorem returnAccepts_some {e : Branch} (he : expected.find? isReturn = some e) (g : Branch) :
    returnAccepts lineage expected (some g) = accepts lineage e g := by
  rw [Bool.eq_iff_iff, returnAccepts_iff, he]
  simp

theorem returnAccepts_none (given : Option Branch)
    (h : expected.find? isReturn = none ∨ given = none) :
    returnAccepts lineage expected given = true := by
  rw [returnAccepts_iff]
  rcases h with h | h <;> simp [h]

/-- What two branches leave open is asked of the branches below them. -/
theorem accepts_eq (lineage : Lineage) (e g : Branch) :
    accepts lineage e g =
      match e.part.inquiry lineage g.part with
      | .settled yes => yes
      | .eachGiven => g.children.all (accepts lineage e)
      | .oneExpected => e.children.any (accepts lineage · g)
      | .eachExpected => e.children.all (accepts lineage · g)
      | .signatures =>
        lockstep lineage e.parameters g.parameters &&
          returnAccepts lineage e.children (g.children.find? isReturn)
      | .members => lockstep lineage e.children g.children := by
  obtain ⟨part, children⟩ := e
  cases hg : g.part.union with
  | true =>
    obtain ⟨given, members⟩ := g
    have hunion : given.union = true := hg
    simp only [TypePart.inquiry, Branch.part, Branch.children, hunion, if_true]
    rw [Bool.eq_iff_iff, accepts_iff_alternatives, alternatives_of_union hunion, List.all_eq_true]
    constructor
    · intro h g hg
      exact accepts_iff_alternatives.mpr fun g' hg' => h g' (mem_alternativesIn.mpr ⟨g, hg, hg'⟩)
    · intro h g' hg'
      obtain ⟨g, hg, hg'⟩ := mem_alternativesIn.mp hg'
      exact accepts_iff_alternatives.mp (h g hg) g' hg'
  | false =>
    have hparameters : (if part.parameters then lockstep lineage children g.parameters
        else (parametersAccept lineage children g.parameters).getD g.parameters.isEmpty) =
          lockstep lineage (node part children).parameters g.parameters := by
      rw [parameters.eq_def (node part children), flagged?, parametersAccept_eq]
      cases part.parameters with
      | true => rfl
      | false => cases flaggedIn? (·.parameters) children <;> rfl
    have hany : acceptsAny lineage children g = children.any (accepts lineage · g) := by
      rw [Bool.eq_iff_iff, acceptsAny_iff, List.any_eq_true]
    have hall : acceptsAll lineage children g = children.all (accepts lineage · g) := by
      rw [Bool.eq_iff_iff, acceptsAll_iff, List.all_eq_true]
    rw [accepts, alternatives_eq_singleton hg, List.all_cons, List.all_nil, Bool.and_true,
      hparameters, hany, hall, TypePart.inquiry, hg, if_neg Bool.false_ne_true]
    have hpart : (node part children).part = part := rfl
    have hchildren : (node part children).children = children := rfl
    simp only [hpart, hchildren]
    cases part.union with
    | true => simp
    | false =>
      cases part.intersection with
      | true => simp
      | false =>
        cases part.inout && !g.part.inout with
        | true => simp
        | false =>
          by_cases hfunction : part.predefined = some (.composite .function)
          · cases part.functionsAgree g.part <;> simp [hfunction]
          · cases part.array || part.dictionary with
            | true => cases part.array == g.part.array &&
                part.dictionary == g.part.dictionary <;> simp [hfunction]
            | false => cases part.leafAccepts lineage g.part <;> cases part.genericArguments
                <;> simp [hfunction]

/-- Without variadic parts, as many are given as are expected, one for each. -/
theorem lockstep_iff_forall₂ (hsingle : ∀ e ∈ expected, e.part.variadic = false) :
    lockstep lineage expected given = true ↔
      List.Forall₂ (fun e g => accepts lineage e g = true) expected given := by
  induction expected generalizing given with
  | nil =>
    rw [lockstep, List.isEmpty_iff, List.forall₂_nil_left_iff]
  | cons e expected ih =>
    obtain ⟨he, hsingle⟩ := List.forall_mem_cons.mp hsingle
    cases given with
    | nil => simp [lockstep, he]
    | cons g given => simp [lockstep, he, ih hsingle]

theorem lockstep_cons_of_variadic {v : Branch} (hv : v.part.variadic = true)
    (back given : List Branch) : lockstep lineage (v :: back) given =
      (decide (back.length ≤ given.length) &&
        (given.take (given.length - back.length)).all (accepts lineage v) &&
        lockstep lineage back (given.drop (given.length - back.length))) := by
  rw [lockstep.eq_def]
  exact if_pos hv

theorem lockstep_cons_of_not_variadic {e : Branch} (he : e.part.variadic = false) (g : Branch)
    (expected given : List Branch) :
    lockstep lineage (e :: expected) (g :: given) =
      (accepts lineage e g && lockstep lineage expected given) := by
  rw [lockstep, he, if_neg Bool.false_ne_true]

/-- Where as many are given as are expected, each takes one.  A variadic part is no exception, for
    those behind it need all the others. -/
theorem lockstep_iff_forall₂_of_length_eq (hlength : expected.length = given.length) :
    lockstep lineage expected given = true ↔
      List.Forall₂ (fun e g => accepts lineage e g = true) expected given := by
  induction expected generalizing given with
  | nil => rw [lockstep, List.isEmpty_iff, List.forall₂_nil_left_iff]
  | cons e expected ih =>
    obtain ⟨g, given, rfl⟩ := List.exists_cons_of_length_eq_add_one hlength.symm
    have hrest : expected.length = given.length := Nat.succ.inj hlength
    rw [List.forall₂_cons, ← ih hrest]
    cases he : e.part.variadic with
    | true =>
      have hone : (g :: given).length - expected.length = 1 := by
        rw [List.length_cons]
        omega
      rw [lockstep_cons_of_variadic he, hone]
      simp [hrest]
    | false => rw [lockstep_cons_of_not_variadic he, Bool.and_eq_true]

end Branch

/-! ## Detached branches -/

/-- A part with nothing said about where it stands. -/
def TypePart.detached (part : TypePart) : TypePart := { part with parent := none }

namespace Branch

variable {b b' g : Branch} {bs gs : List Branch} {lineage : Lineage}

mutual

/-- A branch with nothing said about where its parts stand. -/
def detached : Branch → Branch
  | .node part children => .node part.detached (detachedAll children)

def detachedAll : List Branch → List Branch
  | [] => []
  | b :: rest => b.detached :: detachedAll rest

end

@[simp] theorem detachedAll_eq (bs : List Branch) : detachedAll bs = bs.map detached := by
  induction bs with
  | nil => rfl
  | cons b bs ih => rw [detachedAll, ih, List.map_cons]

theorem detached_node (part : TypePart) (children : List Branch) :
    (node part children).detached = node part.detached (children.map detached) := by
  rw [detached, detachedAll_eq]

@[simp] theorem part_detached (b : Branch) : b.detached.part = b.part.detached := by
  cases b
  rw [detached_node]
  rfl

@[simp] theorem children_detached (b : Branch) : b.detached.children = b.children.map detached := by
  cases b
  rw [detached_node]
  rfl

@[simp] theorem isReturn_detached (b : Branch) : b.detached.isReturn = b.isReturn := by
  rw [isReturn, part_detached]
  rfl

theorem find?_isReturn_detached (bs : List Branch) :
    (bs.map detached).find? isReturn = (bs.find? isReturn).map detached := by
  have hreturn : isReturn ∘ detached = isReturn := funext isReturn_detached
  rw [List.find?_map, hreturn]

mutual

theorem flattenInto_detached (b : Branch) (parent : Option Nat) (out : List TypePart) :
    b.detached.flattenInto parent out = b.flattenInto parent out := by
  cases b with
  | node part children =>
    rw [detached, flattenInto, flattenInto]
    exact flattenUnder_detachedAll children _ _

theorem flattenUnder_detachedAll (bs : List Branch) (parent : Nat) (out : List TypePart) :
    flattenUnder (detachedAll bs) parent out = flattenUnder bs parent out := by
  cases bs with
  | nil => rfl
  | cons b rest =>
    rw [detachedAll, flattenUnder, flattenUnder, flattenInto_detached b,
      flattenUnder_detachedAll rest]

end

/-- What is flattened is put where it belongs, wherever it stood. -/
theorem flatten_eq_of_detached_eq (h : b.detached = b'.detached) : b.flatten = b'.flatten := by
  rw [flatten, flatten, ← flattenInto_detached b, h, flattenInto_detached]

theorem alternatives_detached (b : Branch) :
    b.detached.alternatives = b.alternatives.map detached := by
  induction b using rec_children with
  | node part children ih =>
    have hin : alternativesIn (children.map detached) = (alternativesIn children).map detached := by
      induction children with
      | nil => rfl
      | cons c children ihc =>
        obtain ⟨hc, hchildren⟩ := List.forall_mem_cons.mp ih
        rw [List.map_cons, alternativesIn, alternativesIn, hc, ihc hchildren, List.map_append]
    rw [detached_node]
    cases hunion : part.union with
    | true =>
      have hdetached : part.detached.union = true := hunion
      rw [alternatives_of_union hdetached, alternatives_of_union hunion, hin]
    | false =>
      have hdetached : part.detached.union = false := hunion
      rw [alternatives_of_not_union hdetached, alternatives_of_not_union hunion,
        List.map_singleton, detached_node]

theorem flagged?_detached (flag : TypePart → Bool)
    (hflag : ∀ part : TypePart, flag part.detached = flag part)
    (b : Branch) : b.detached.flagged? flag = (b.flagged? flag).map (·.map detached) := by
  induction b using rec_children with
  | node part children ih =>
    have hin : flaggedIn? flag (children.map detached) =
      (flaggedIn? flag children).map (·.map detached) := by
      induction children with
      | nil => rfl
      | cons c children ihc =>
        obtain ⟨hc, hchildren⟩ := List.forall_mem_cons.mp ih
        rw [List.map_cons, flaggedIn?, flaggedIn?, hc, ihc hchildren]
        cases c.flagged? flag <;> rfl
    rw [detached_node, flagged?, flagged?, hflag, hin]
    split <;> rfl

theorem parameters_detached (b : Branch) : b.detached.parameters = b.parameters.map detached := by
  rw [parameters, parameters, flagged?_detached _ fun _ => rfl]
  cases b.flagged? (·.parameters) <;> rfl

/-! Acceptance does not look at where parts stand. -/

/-- The branch accepts detached what it accepts. -/
def Placeless (lineage : Lineage) (e : Branch) : Prop :=
  ∀ g : Branch, accepts lineage e.detached g.detached = accepts lineage e g

theorem acceptsAny_detached (h : ∀ e ∈ bs, Placeless lineage e) :
    acceptsAny lineage (bs.map detached) g.detached = acceptsAny lineage bs g := by
  induction bs with
  | nil => rfl
  | cons e bs ih =>
    obtain ⟨he, hbs⟩ := List.forall_mem_cons.mp h
    rw [List.map_cons, acceptsAny, acceptsAny, he g, ih hbs]

theorem acceptsAll_detached (h : ∀ e ∈ bs, Placeless lineage e) :
    acceptsAll lineage (bs.map detached) g.detached = acceptsAll lineage bs g := by
  induction bs with
  | nil => rfl
  | cons e bs ih =>
    obtain ⟨he, hbs⟩ := List.forall_mem_cons.mp h
    rw [List.map_cons, acceptsAll, acceptsAll, he g, ih hbs]

theorem lockstep_detached (h : ∀ e ∈ bs, Placeless lineage e) (gs : List Branch) :
    lockstep lineage (bs.map detached) (gs.map detached) = lockstep lineage bs gs := by
  induction bs generalizing gs with
  | nil => cases gs <;> rfl
  | cons e bs ih =>
    obtain ⟨he, hbs⟩ := List.forall_mem_cons.mp h
    have hvariadic : e.detached.part.variadic = e.part.variadic := by
      rw [part_detached]
      rfl
    have hall : ∀ gs : List Branch,
        (gs.map detached).all (accepts lineage e.detached) = gs.all (accepts lineage e) := by
      intro gs
      rw [List.all_map]
      exact congrArg gs.all (funext he)
    rw [List.map_cons, lockstep.eq_def, lockstep.eq_def lineage (e :: bs)]
    simp only [hvariadic, List.length_map, ← List.map_take, ← List.map_drop, hall, ih hbs]
    cases gs with
    | nil => rfl
    | cons g gs => simp only [List.map_cons, he g, ih hbs]

theorem returnAccepts_detached (h : ∀ e ∈ bs, Placeless lineage e) (g : Option Branch) :
    returnAccepts lineage (bs.map detached) (g.map detached) = returnAccepts lineage bs g := by
  induction bs with
  | nil => rfl
  | cons e bs ih =>
    obtain ⟨he, hbs⟩ := List.forall_mem_cons.mp h
    rw [List.map_cons, returnAccepts.eq_def, returnAccepts.eq_def lineage (e :: bs)]
    simp only [isReturn_detached, ih hbs]
    cases g with
    | none => rfl
    | some g => simp only [Option.map_some, he g]

theorem parametersAccept_detached
    (h : ∀ parameters, flaggedIn? (·.parameters) bs = some parameters → ∀ p ∈ parameters,
      Placeless lineage p)
    (gs : List Branch) :
    parametersAccept lineage (bs.map detached) (gs.map detached) =
      parametersAccept lineage bs gs := by
  have hflagged : flaggedIn? (·.parameters) (bs.map detached) =
      (flaggedIn? (·.parameters) bs).map (·.map detached) := by
    have hnode := flagged?_detached (·.parameters) (fun _ => rfl) (node {} bs)
    rwa [detached_node] at hnode
  rw [parametersAccept_eq, parametersAccept_eq, hflagged, Option.map_map]
  cases hparameters : flaggedIn? (·.parameters) bs with
  | none => rfl
  | some parameters => exact congrArg some (lockstep_detached (h parameters hparameters) gs)

/-- Neither a branch nor the parameters of a function in it are compared by where they stand. -/
theorem placeless (lineage : Lineage) (b : Branch) :
    Placeless lineage b ∧
      ∀ parameters, b.flagged? (·.parameters) = some parameters → ∀ p ∈ parameters,
        Placeless lineage p := by
  induction b using rec_children with
  | node part children ih =>
    have hchildren : ∀ c ∈ children, Placeless lineage c := fun c hc => (ih c hc).1
    have hparameters : ∀ parameters, flaggedIn? (·.parameters) children = some parameters →
        ∀ p ∈ parameters, Placeless lineage p := by
      intro parameters hflagged
      rw [flaggedIn?_eq_findSome?] at hflagged
      obtain ⟨c, hc, hflagged⟩ := List.exists_of_findSome?_eq_some hflagged
      exact (ih c hc).2 parameters hflagged
    constructor
    · intro g
      rw [detached_node, accepts, accepts, alternatives_detached, List.all_map]
      refine congrArg g.alternatives.all (funext fun g' => ?_)
      simp only [Function.comp_apply, acceptsAny_detached hchildren, acceptsAll_detached hchildren,
        parameters_detached, lockstep_detached hchildren, parametersAccept_detached hparameters,
        children_detached,
        find?_isReturn_detached, returnAccepts_detached hchildren, part_detached, List.isEmpty_map]
      rfl
    · intro parameters hflagged
      rw [flagged?] at hflagged
      split at hflagged
      · cases hflagged
        exact hchildren
      · exact hparameters parameters hflagged

theorem accepts_eq_of_detached_eq (hb : b.detached = b'.detached) {g g' : Branch}
    (hg : g.detached = g'.detached) : accepts lineage b g = accepts lineage b' g' := by
  rw [← (placeless lineage b).1 g, hb, hg, (placeless lineage b').1 g']

theorem lockstep_eq_of_detached_eq {bs' gs' : List Branch} (hb : bs.map detached = bs'.map detached)
    (hg : gs.map detached = gs'.map detached) :
      lockstep lineage bs gs = lockstep lineage bs' gs' := by
  rw [← lockstep_detached (fun e _ => (placeless lineage e).1) gs, hb, hg,
    lockstep_detached (fun e _ => (placeless lineage e).1)]

end Branch

end CompositeGraph
