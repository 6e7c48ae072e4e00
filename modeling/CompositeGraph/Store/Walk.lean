/-
  WALKS through a store.

  Links may run in circles and may be stale, so a walk remembers where it has been and stops at a
  handle that names nothing.  It visits each composite at most once, so as many steps as the store
  has slots are always enough; that number is the bound of each walk here.

    1. TRAILS.    `Store.trail`: the composites along one link, each once.
    2. CIRCLES.   `Store.returns`: whether a slot, followed from a composite, comes back.
    3. REACHING.  `Store.reaches`: whether a walk from a composite over
retainers meets a root. -/
import CompositeGraph.Store.Basic

namespace CompositeGraph.Store

/-- The composites met from a handle on along a link, none of them twice. -/
def trailFrom (store : Store) (link : Handle → Composite → Option Handle) :
    (steps : Nat) → (visited : List Handle) → Option Handle → List (Handle × Composite)
  | 0, _, _ => []
  | _ + 1, _, none => []
  | steps + 1, visited, some handle =>
    if visited.contains handle then []
    else
      match store.get? handle with
      | none => []
      | some composite =>
        (handle, composite) ::
          trailFrom store link steps (handle :: visited) (link handle composite)

/-- The composites along a link. -/
def trail (store : Store) (link : Handle → Composite → Option Handle) (start : Option Handle) :
    List (Handle × Composite) :=
  store.trailFrom link store.size [] start

/-- The composites along a slot. -/
def slotTrail (store : Store) (slot : Slot) (start : Option Handle) : List (Handle × Composite) :=
  store.trail (fun _ composite => composite.links.get slot) start

/-- Whether following a slot from a composite meets a handle twice. -/
def returnsFrom (store : Store) (slot : Slot) :
    (steps : Nat) → (visited : List Handle) → Option Handle → Bool
  | _, _, none => false
  | 0, visited, some handle => visited.contains handle
  | steps + 1, visited, some handle =>
    visited.contains handle ||
      match store.get? handle with
      | none => false
      | some composite =>
        returnsFrom store slot steps (handle :: visited) (composite.links.get slot)

def returns (store : Store) (slot : Slot) (start : Handle) : Bool :=
  store.returnsFrom slot store.size [] (some start)

/-- The retainers of a composite; none if the handle is stale. -/
def retainers (store : Store) (handle : Handle) : List Handle :=
  match store.get? handle with
  | some composite => composite.links.retainers
  | none => []

/-- Walks over retainers until one of them is a root. -/
def reachesFrom (store : Store) (roots : List Handle) :
    (steps : Nat) → (visited pending : List Handle) → Bool
  | 0, _, _ => false
  | steps + 1, visited, pending =>
    match pending.dropWhile fun handle => visited.contains handle || !store.contains handle with
    | [] => false
    | handle :: rest =>
      (store.retainers handle).any roots.contains ||
        reachesFrom store roots steps (handle :: visited) (store.retainers handle ++ rest)

/-- Whether a composite is a root, or is retained by one through any number of others. -/
def reaches (store : Store) (roots : List Handle) (target : Handle) : Bool :=
  roots.contains target || store.reachesFrom roots store.size [] [target]

end CompositeGraph.Store
