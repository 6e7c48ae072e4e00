/-
  ACCEPTANCE: which types may stand where another is expected.

  A given union is accepted when each of its members is; an expected union accepts what one of its
  members does, an expected intersection what all of them do.  Functions are compared by their
  requirements, parameters and return types, arrays and dictionaries member by member, and
  everything else by name or by descent from the composite that is referred to.

  Comparing two parts leads to comparing parts below them.  In a tree that comes to an end; where a
  part stands below itself it may not, and then there is no answer.

    1. LINEAGE.    What acceptance has to know of composites: the type above one, and its kind.
    2. LEAVES.     `TypePart.leafAccepts`, with the walk up the types above.
    3. PARTS.      `Inquiry`: what two parts leave open.  `acceptsBy`: what is then asked of the
                   parts below, and what follows from the answers.  `lockstepBy` pairs lists of
                   parts; an expected variadic part takes in as many as leave enough for the rest.
    4. TYPES.      `partAccepts?` and `accepts?`, with an answer where there is one,
and `accepts`. -/
import CompositeGraph.TypeTree.Basic

namespace CompositeGraph

/-! ## Lineage -/

/-- What acceptance asks of composites. -/
structure Lineage where
  /-- The type one level up. -/
  superType : Handle → Option Handle
  /-- What the composite's own type says it is. -/
  kind : Handle → Option Predefined

namespace Lineage

/-- No lineage is walked further up than this. -/
def limit : Nat := 1024

/-- Whether a composite is, or comes from, another. -/
def descends (lineage : Lineage) (ancestor : Handle) : Nat → Handle → Bool
  | 0, current => current == ancestor
  | steps + 1, current =>
    current == ancestor ||
      match lineage.superType current with
      | some above => descends lineage ancestor steps above
      | none => false

end Lineage

/-! ## Leaves -/

namespace TypePart

/-- Acceptance between two parts, their children aside. -/
def leafAccepts (lineage : Lineage) (expected given : TypePart) : Bool :=
  match expected.reference with
  | some ancestor =>
    match given.reference with
    | none => false
    | some current =>
      expected.isSelf == given.isSelf && lineage.descends ancestor Lineage.limit current
  | none =>
    match expected.predefined with
    | none | some .any | some .wildcard => true
    | some (.composite kind) =>
      match given.reference with
      | some handle =>
        if kind = .object then !given.isSelf
        else given.isSelf && lineage.kind handle == some (.composite kind)
      | none => given.predefined == some (.composite kind)
    | some predefined => given.predefined == some predefined

/-- Two requirements agree unless both are said and differ. -/
def requirementsAgree : Option Requirement → Option Requirement → Bool
  | some a, some b => a == b
  | _, _ => true

/-- The requirements of two function parts agree. -/
def functionsAgree (expected given : TypePart) : Bool :=
  given.predefined == some (.composite .function) &&
    requirementsAgree expected.inits given.inits &&
    requirementsAgree expected.deinits given.deinits &&
    requirementsAgree expected.awaits given.awaits &&
    requirementsAgree expected.throws given.throws

end TypePart

/-! ## Parts -/

/-- What is left to find out about two parts once these have been looked at. -/
inductive Inquiry where
  /-- Nothing. -/
  | settled (yes : Bool)
  /-- Whether each member of the given union is accepted. -/
  | eachGiven
  /-- Whether a member of the expected union accepts the given part. -/
  | oneExpected
  /-- Whether each member of the expected intersection does. -/
  | eachExpected
  /-- Whether the parameters and the return types of two functions fit. -/
  | signatures
  /-- Whether the parts under them fit. -/
  | members

/-- What is to be found out about an expected and a given part. -/
def TypePart.inquiry (lineage : Lineage) (expected given : TypePart) : Inquiry :=
  if given.union then .eachGiven
  else if expected.union then .oneExpected
  else if expected.intersection then .eachExpected
  else if expected.inout && !given.inout then .settled false
  else if expected.predefined == some (.composite .function) then
    if expected.functionsAgree given then .signatures else .settled false
  else if expected.array || expected.dictionary then
    if expected.array == given.array && expected.dictionary == given.dictionary then .members
    else .settled false
  else if expected.leafAccepts lineage given then
    if expected.genericArguments then .members else .settled true
  else .settled false

namespace TypeTree

/-- An answer to whether the part of one type accepts the part of another, if there is one. -/
abbrev Comparison := (expected : TypeTree) → (e : Nat) → (given : TypeTree) →
    (g : Nat) → Option Bool

/-- Pairs expected and given parts in order.  A variadic expected part takes in all given ones but
    as many as there are expected parts after it. -/
def lockstepBy (ask : Comparison) (expected given : TypeTree) : (es gs : List Nat) → Option Bool
  | [], gs => some gs.isEmpty
  | e :: es, gs =>
    if (expected.part e).variadic then
      if es.length ≤ gs.length then do
        let taken := gs.length - es.length
        if ← (gs.take taken).allM fun g => ask expected e given g then
          lockstepBy ask expected given es (gs.drop taken)
        else return false
      else some false
    else
      match gs with
      | [] => some false
      | g :: gs => do
        if ← ask expected e given g then lockstepBy ask expected given es gs else return false

/-- Compares two function types: their parameters in lockstep, and then their return types if both
    have one. -/
def signaturesBy (ask : Comparison) (expected given : TypeTree) : Option Bool := do
  if ← lockstepBy ask expected given expected.parameters given.parameters then
    match expected.return?, given.return? with
    | some e, some g => ask expected e given g
    | _, _ => return true
  else return false

/-- Whether the part of one type accepts the part of another, by what is asked of the parts below.
    Questions are asked in order, and none that the answers so far have settled. -/
def acceptsBy (lineage : Lineage) (ask : Comparison) : Comparison := fun expected e given g =>
  match (expected.part e).inquiry lineage (given.part g) with
  | .settled yes => some yes
  | .eachGiven => (given.children g).allM fun child => ask expected e given child
  | .oneExpected => (expected.children e).anyM fun child => ask expected child given g
  | .eachExpected => (expected.children e).allM fun child => ask expected child given g
  | .signatures => do signaturesBy ask (← expected.subtype? e) (← given.subtype? g)
  | .members => lockstepBy ask expected given (expected.children e) (given.children g)

/-- The same with the parts below compared in turn, no more than a number of levels down. -/
def acceptsWithin (lineage : Lineage) : (levels : Nat) → Comparison
  | 0 => fun _ _ _ _ => none
  | levels + 1 => acceptsBy lineage (acceptsWithin lineage levels)

/-! ## Types -/

/-- Whether the part of one type accepts the part of another, if comparing them comes to an end.
    Beside more levels than can be gone through, there is one for each pair of parts: where more are
    needed, a pair has come up again below itself. -/
def partAccepts? (lineage : Lineage) (expected : TypeTree) (e : Nat) (given : TypeTree) (g : Nat) :
    Option Bool :=
  acceptsWithin lineage (outOfReach + (expected.size + 2) * (given.size + 2)) expected e given g

/-- Compares lists of parts of two types. -/
def lockstep? (lineage : Lineage) (expected : TypeTree) (es : List Nat) (given : TypeTree)
    (gs : List Nat) : Option Bool :=
  lockstepBy (partAccepts? lineage) expected given es gs

/-- Whether a type accepts another, if comparing them comes to an end.  The empty type accepts
    everything; what is empty is accepted as nil. -/
def accepts? (lineage : Lineage) (expected given : TypeTree) : Option Bool :=
  match expected.root?, given.root? with
  | none, _ => some true
  | some root, none => some (root.nillable || root.predefined == some .wildcard)
  | some _, some _ => expected.partAccepts? lineage 0 given 0

/-- Whether a type accepts another; not where there is no answer. -/
def accepts (lineage : Lineage) (expected given : TypeTree) : Bool :=
  (expected.accepts? lineage given).getD false

end TypeTree

end CompositeGraph
