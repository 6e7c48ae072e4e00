/-
  SAFETY: what a run destroys is out of reach.

  A composite is destroyed when the lists of retainers lead back to no root.  At that moment no list
  misses a link of a living composite, so the links lead from no root to it either.  A watch that
  asks for this before each destruction therefore never has to step in.

  The roots are the outermost namespace, that of the innermost scope, and what transfers hold.
  Scopes further out are no roots: what only a suspended call can reach may be destroyed under it.

    1. WATCHES.   `Machine.reaches`, which lets every destruction pass in a store
                  that misses no link.
    2. MODULES.   Three small modules that destroy what a wider reach would take in.
    3. RUNS.      The run of a module, watched and not.
-/
import CompositeGraph.Proofs.Reachability
import CompositeGraph.Proofs.Symmetry

namespace CompositeGraph

open Run Discipline

/-! ## Watches -/

/-- Whether links lead from some composites to another, through composites of a sort. -/
def Machine.reachesFrom (starts : Machine → List Handle)
    (via : Machine → Handle → Bool) (m : Machine)
    (h : Handle) : Bool := decide (m.store.Linked (via m) (starts m) h)

/-- Whether links of living composites lead from a root to a composite. -/
def Machine.reaches : Machine → Handle → Bool :=
  Machine.reachesFrom Machine.roots fun m => m.store.isAlive

/-- What the lists of retainers do not keep is out of reach if they miss no link. -/
theorem passes_reaches : Passes noEdges Machine.reaches := by
  intro m h extra hb hthere hlost
  refine decide_eq_false fun hlinked => ?_
  have hkept : m.store.Kept m.roots h := hlinked.kept fun a b ha hlink hb' hne =>
    (hb.listed a b ha hlink hb' hne).resolve_right id
  have hreaches : m.isRetained h = true := Store.reaches_iff.mpr hkept
  rw [hlost] at hreaches
  cases hreaches

/-! ## Modules -/

namespace Sketch

def named (name : String) : Node := .bare (.identifier name)

def body (statements : List Node) : Node := .bare (.body statements)

def signature (parameters : List String) : Node :=
  .bare (.signature
    { parameters := parameters.map fun name =>
      .bare (.parameter none (some (named name)) none none) })

def assignment (name : String) (value : Node) : Node :=
  .bare (.sequence [named name, .bare (.operator .between "="), value])

def calling (callee : String) (arguments : List Node) : Node :=
  .bare (.call (some (named callee)) [] (arguments.map fun value =>
    .bare (.argument none (some value))) none)

def variableNamed (name : String) (value : Node) : Node :=
  .bare (.variableDeclaration [] [.bare (.declarator (some (named name)) none (some value) none)])

def functionNamed (name : String) (parameters : List String) (statements : List Node) : Node :=
  .bare (.functionDeclaration ⟨[], some (named name), some (signature parameters),
    some (body statements)⟩)

/-- A class with fields, an initializer and a deinitializer. -/
def classNamed (name : String) (fields initial final : List Node) : Node :=
  let initializer :=
    .bare (.initializerDeclaration [] false (some (signature [])) (some (body initial)))
  let deinitializer := .bare (.deinitializerDeclaration (some (body final)))
  .bare (.compositeDeclaration .class
    ⟨[], some (named name), [], [], some (body (fields ++ [initializer, deinitializer]))⟩)

end Sketch

open Sketch

/-- `f` keeps a function in `x` and hands it to `g`, which forgets it.  With the function goes the
    namespace of the call of `f` that it was made in, and `y` is no longer found when `g` has
    returned. -/
def suspendedLocal : Node := .bare (.module
  [functionNamed "g" ["p"] [assignment "p" (.bare .nilLiteral)],
    functionNamed "f" []
      [variableNamed "x" (.bare (.functionExpression ⟨[], none, none, some (body [])⟩)),
        variableNamed "y" (.bare (.literal .boolean (.boolean true))),
        calling "g" [named "x"],
        calling "print" [named "y"]],
    calling "f" []])

/-- The only object of `X` makes itself known again while it is being destroyed; the object of `Y`
    that it holds is destroyed all the same. -/
def resurrection : Node := .bare (.module
  [classNamed "Y" [] [] [],
    classNamed "X" [variableNamed "y" (.bare .nilLiteral)] [assignment "y" (calling "Y" [])]
      [assignment "keep" (named "self")],
    variableNamed "keep" (.bare .nilLiteral),
    calling "X" []])

/-- The outermost namespace is linked to another one that does not list it. -/
def unlisted : Store :=
  let space (title : String) : Composite := Composite.fresh (some title) (.ofKind .namespace)
  let held : Overload := { type := .empty, value := some (.reference ⟨1, 0⟩) }
  ⟨#[⟨0, some { space "Global" with members := Assoc.empty.put "x" [held] }⟩,
    ⟨0, some (space "Local")⟩]⟩

/-- A parameter holds what `x` holds, and holds it no longer. -/
def passedOn : Node := .bare (.module [functionNamed "g" ["p"] [], calling "g" [named "x"]])

/-! ## Runs -/

/-- Whenever a composite is destroyed while a module runs, on an empty store or on a seed, links of
    living composites lead to it neither from the outermost namespace nor from that of the innermost
    scope nor from what a transfer holds: a watch that refuses to destroy such a composite never
    does, and the watched run is the run itself. -/
theorem destroyed_out_of_reach {seed : Store} (hseed : seed = .empty ∨ seed.IsSeed)
    (preferences : Preferences) (tokens : Array Token) (depth : Nat) (tree : Node) :
    let m : Machine := { Machine.withStore seed preferences with tokens }
    runModule (watched Machine.reaches depth) tree m = runModule (rules depth) tree m ∧
      runModule (watched Machine.reaches depth) tree m ≠ .error .refused := by
  intro m
  have hseed : seed.IsSeed := hseed.elim (fun h => h ▸ Store.isSeed_empty) id
  obtain ⟨ho, hc⟩ := obeys_balance passes_reaches depth
  obtain ⟨hsame, hpasses⟩ :=
    (runModule_keeps (admits_balance hc) (ho noEdges) tree (hseed.fits preferences tokens)).same
  rw [hsame]
  exact ⟨rfl, hpasses⟩

/-- Three composites come and go, the namespace of a suspended call among them, and none of them is
    within reach when it goes. -/
theorem destroyed_out_of_reach_suspended :
    (runModule (rules 40) suspendedLocal (.fresh {})).toOption.map
        (fun result => (result.2.store.liveCount, result.2.store.size)) = some (6, 9) ∧
      runModule (watched Machine.reaches 40) suspendedLocal (.fresh {}) =
        runModule (rules 40) suspendedLocal (.fresh {}) :=
  ⟨by decide +kernel, (destroyed_out_of_reach (Or.inl rfl) {} #[] 40 suspendedLocal).1⟩

/-- Why a run broke off, if it did. -/
def Run.halt? {α : Type} (x : Run α) (m : Machine) : Option Halt :=
  match x m with
  | .error halt => some halt
  | .ok _ => none

/-- What is destroyed may be in reach of the namespace of a suspended call, or of the outermost
    namespace by links of a composite that is being destroyed itself, or by links that a list of
    retainers misses from the start. -/
theorem destroyed_within_wider_reach :
    let everyScope (m : Machine) := m.global?.toList ++ m.scopes.map (·.namespaceHandle)
    let living (m : Machine) := m.store.isAlive
    (runModule (watched (Machine.reachesFrom everyScope living) 40) suspendedLocal).halt?
    (.fresh {}) =
        some .refused ∧
      (runModule (watched (Machine.reachesFrom (·.global?.toList) fun _ _ => true) 40)
        resurrection).halt?
        (.fresh {}) = some .refused ∧
      (runModule (watched (Machine.reachesFrom (·.global?.toList) living) 40) passedOn).halt?
        (.withStore unlisted {}) = some .refused := by
  refine ⟨?_, ?_, ?_⟩ <;> decide +kernel

end CompositeGraph
