/-
  WALKS come to an end, in every store.

  Slots, imports and retainers may run in circles, and may name what is no longer there.  So a walk
  keeps the handles it has visited and goes on only from what is new to it.  `Search.Walk` says what
  such a walk does, one rule for each thing that can happen at a handle, with no bound on the number
  of steps: a walk that never came to an end would have no derivation.  Nor would one that looks at
  a composite and never gets an answer, so what is found at a composite is a relation.  Where there
  are answers, there is a walk, and it ends with what a walk with a bound finds; the bound never
  cuts it short.

    1. WALKS.         `Search.Walk`: no handle is visited twice, and there is one walk at most.
    2. BOUNDS.        `roam`, a walk with so many steps.  As many as there are slots are enough,
                      because each step that goes on from a composite visits a new one.
    3. TRAILS.        Looking along a trail is such a walk.
    4. LINKS.         Walks that ask nothing but what a composite is: down to the lowest object, out
                      of objects, outwards for an operator, from retainer to retainer.
    5. INITIALIZERS.  The object under creation, and the classes that
objects are made for. -/
import CompositeGraph.Proofs.Dispatch
import CompositeGraph.Proofs.Instances

namespace CompositeGraph

open Run Store

/-! ## Walks -/

/-- What a walk looks for, and where it goes on from a composite that is not it. -/
structure Search (α : Type) where
  /-- What looking at a composite comes to.  It need not come to anything. -/
  finds : Handle → Composite → Option α → Prop
  next : Handle → Composite → List Handle
  unique : ∀ {h c found found'}, finds h c found → finds h c found' → found' = found

namespace Search

/-- A search in which it can always be said what is found at a composite. -/
def plain {α : Type} (found : Handle → Composite → Option α)
    (next : Handle → Composite → List Handle) : Search α where
  finds h c result := found h c = result
  next := next
  unique hfound hfound' := hfound'.symm.trans hfound

variable {α : Type} {search : Search α} {s : Store} {visited pending visits : List Handle}
  {result : Option α}

/-- A walk from the handles that are waiting: which it visits, in order, and what it finds.  What
    was visited is passed over; from what is stale it goes nowhere; from anything else it goes on
    before the rest. -/
inductive Walk (search : Search α) (s : Store) :
    (visited pending visits : List Handle) → (result : Option α) → Prop where
  | done {visited : List Handle} : Walk search s visited [] [] none
  | again {visited rest visits : List Handle} {result : Option α} {h : Handle} : h ∈ visited →
      Walk search s visited rest visits result → Walk search s visited (h :: rest) visits result
  | stale {visited rest visits : List Handle} {result : Option α} {h : Handle} : h ∉ visited →
      s.get? h = none →
      Walk search s (h :: visited) rest visits result →
      Walk search s visited (h :: rest) (h :: visits) result
  | found {visited rest : List Handle} {h : Handle} {c : Composite} {a : α} : h ∉ visited →
      s.get? h = some c →
      search.finds h c (some a) → Walk search s visited (h :: rest) [h] (some a)
  | onward {visited rest visits : List Handle} {result : Option α} {h : Handle} {c : Composite} :
      h ∉ visited →
      s.get? h = some c → search.finds h c none →
      Walk search s (h :: visited) (search.next h c ++ rest) visits result →
      Walk search s visited (h :: rest) (h :: visits) result

namespace Walk

/-- Whatever is visited is new. -/
theorem not_mem_visited (hw : search.Walk s visited pending visits result) :
    ∀ v ∈ visits, v ∉ visited := by
  induction hw with
  | done => exact fun _ hv => absurd hv List.not_mem_nil
  | again _ _ ih => exact ih
  | found hnew _ _ => exact List.forall_mem_singleton.mpr hnew
  | stale hnew _ _ ih | onward hnew _ _ _ ih =>
    exact List.forall_mem_cons.mpr ⟨hnew, fun v hv hmem => ih v hv (List.mem_cons_of_mem _ hmem)⟩

/-- So nothing is visited twice. -/
theorem nodup (hw : search.Walk s visited pending visits result) : visits.Nodup := by
  induction hw with
  | done => exact List.nodup_nil
  | again _ _ ih => exact ih
  | found => exact List.nodup_singleton _
  | stale _ _ hrest ih | onward _ _ _ hrest ih =>
    exact List.nodup_cons.mpr ⟨fun hmem => hrest.not_mem_visited _ hmem List.mem_cons_self, ih⟩

/-- At each handle one rule applies, so there is no other walk. -/
theorem unique (hw : search.Walk s visited pending visits result) {visits' : List Handle}
    {result' : Option α} (hw' : search.Walk s visited pending visits' result') :
      visits' = visits ∧ result' = result := by
  induction hw generalizing visits' result' with
  | done =>
    cases hw'
    exact ⟨rfl, rfl⟩
  | again hmem _ ih =>
    cases hw' with
    | again _ hrest => exact ih hrest
    | stale hnew | found hnew | onward hnew => exact absurd hmem hnew
  | stale hnew hget _ ih =>
    cases hw' with
    | again hmem => exact absurd hmem hnew
    | stale _ _ hrest =>
      obtain ⟨rfl, rfl⟩ := ih hrest
      exact ⟨rfl, rfl⟩
    | found _ hget' | onward _ hget' => cases hget.symm.trans hget'
  | found hnew hget hfound =>
    cases hw' with
    | again hmem => exact absurd hmem hnew
    | stale _ hget' => cases hget.symm.trans hget'
    | found _ hget' hfound' =>
      cases hget.symm.trans hget'
      exact ⟨rfl, search.unique hfound hfound'⟩
    | onward _ hget' hfound' =>
      cases hget.symm.trans hget'
      cases search.unique hfound hfound'
  | onward hnew hget hfound _ ih =>
    cases hw' with
    | again hmem => exact absurd hmem hnew
    | stale _ hget' => cases hget.symm.trans hget'
    | found _ hget' hfound' =>
      cases hget.symm.trans hget'
      cases search.unique hfound hfound'
    | onward _ hget' _ hrest =>
      cases hget.symm.trans hget'
      obtain ⟨rfl, rfl⟩ := ih hrest
      exact ⟨rfl, rfl⟩

/-- A walk is one in every search that finds the same and goes on in the same way. -/
theorem mono {found : Handle → Composite → Option α}
    (hfound : ∀ h c result, s.get? h = some c → search.finds h c result → found h c = result)
    (hw : search.Walk s visited pending visits result) :
    (plain found search.next).Walk s visited pending visits result := by
  induction hw with
  | done => exact .done
  | again hmem _ ih => exact .again hmem ih
  | stale hnew hget _ ih => exact .stale hnew hget ih
  | found hnew hget hfinds => exact .found hnew hget (hfound _ _ _ hget hfinds)
  | onward hnew hget hfinds _ ih => exact .onward hnew hget (hfound _ _ _ hget hfinds) ih

end Walk

/-- From a start, the walk comes to an end with a result, and has visited each
    handle at most once. -/
structure Concludes (search : Search α) (s : Store) (start visits : List Handle)
    (result : Option α) : Prop where
  walk : search.Walk s [] start visits result
  once : visits.Nodup
  only : ∀ visits' result', search.Walk s [] start visits' result' →
    visits' = visits ∧ result' = result

theorem Walk.concludes {start : List Handle} (hw : search.Walk s [] start visits result) :
    search.Concludes s start visits result :=
  ⟨hw, hw.nodup, fun _ _ hw' => hw.unique hw'⟩

/-! ## Bounds -/

end Search

/-- The walk with a bound on its steps.  Here only what is there is kept as visited. -/
def roam {α : Type} (found : Handle → Composite → Option α)
    (next : Handle → Composite → List Handle) (s : Store) :
    (steps : Nat) → (visited pending : List Handle) → Option α
  | 0, _, _ => none
  | steps + 1, visited, pending =>
    match pending.dropWhile fun h => visited.contains h || !s.contains h with
    | [] => none
    | h :: rest =>
      match s.get? h with
      | none => none
      | some c => (found h c).or (roam found next s steps (h :: visited) (next h c ++ rest))

namespace Search

variable {α : Type} {search : Search α} {s : Store} {visited visits : List Handle}
  {result : Option α}
  {found : Handle → Composite → Option α}

/-- Handles that were visited or are stale are passed over; of those that are there,
    none is visited by that. -/
theorem exists_walk_passing (search : Search α) {passed : List Handle} (rest : List Handle)
    (hpassed : ∀ h ∈ passed, h ∈ visited ∨ s.get? h = none) :
    ∃ visited' stale, (∀ h, s.contains h = true → (h ∈ visited' ↔ h ∈ visited)) ∧
      ∀ visits result, search.Walk s visited' rest visits result →
        search.Walk s visited (passed ++ rest) (stale ++ visits) result := by
  induction passed generalizing visited with
  | nil => exact ⟨visited, [], fun _ _ => Iff.rfl, fun _ _ hw => hw⟩
  | cons h passed ih =>
    obtain ⟨hfirst, hpassed⟩ := List.forall_mem_cons.mp hpassed
    by_cases hmem : h ∈ visited
    · obtain ⟨visited', stale, hsame, hpass⟩ := ih hpassed
      exact ⟨visited', stale, hsame, fun visits result hw => .again hmem (hpass visits result hw)⟩
    · have hget : s.get? h = none := hfirst.resolve_left hmem
      have hpassed : ∀ x ∈ passed, x ∈ h :: visited ∨ s.get? x = none :=
        fun x hx => (hpassed x hx).imp_left (List.mem_cons_of_mem _)
      obtain ⟨visited', stale, hsame, hpass⟩ := ih hpassed
      refine ⟨visited', h :: stale, fun x hx => (hsame x hx).trans ?_, fun visits result hw =>
        .stale hmem hget (hpass visits result hw)⟩
      have hne : x ≠ h := by
        rintro rfl
        rw [Store.contains, hget] at hx
        cases hx
      simp [hne]

/-- A bound that leaves a step for each composite that was not visited yet cuts no walk short. -/
theorem exists_walk_roam (hfound : ∀ h c, s.get? h = some c → search.finds h c (found h c))
    {steps : Nat} (pending : List Handle) {seen : List Handle} (hnodup : seen.Nodup)
    (hthere : ∀ h ∈ seen, s.contains h = true) (henough : s.size ≤ steps + seen.length)
    (hseen : ∀ h, s.contains h = true → (h ∈ visited ↔ h ∈ seen)) :
    ∃ visits, search.Walk s visited pending visits
      (roam found search.next s steps seen pending) := by
  -- By induction on the steps: each one is taken at a composite that is there and new.
  induction steps generalizing seen visited pending with
  | zero =>
    have hall : ∀ h ∈ pending, h ∈ visited ∨ s.get? h = none := by
      intro h _
      cases hget : s.get? h with
      | none => exact Or.inr rfl
      | some c =>
        have hh := contains_of_get? hget
        exact Or.inl ((hseen h hh).mpr (mem_of_size_le_length hnodup hthere (by omega) hh))
    obtain ⟨_, stale, _, hpass⟩ := exists_walk_passing search [] hall
    refine ⟨stale ++ [], ?_⟩
    rw [← List.append_nil pending]
    exact hpass [] none .done
  | succ steps ih =>
    have hpassed : ∀ h ∈ pending.takeWhile fun h => seen.contains h || !s.contains h,
        h ∈ visited ∨ s.get? h = none := by
      intro h hh
      have hpass : (seen.contains h || !s.contains h) = true :=
        List.mem_takeWhile_imp (p := fun h => seen.contains h || !s.contains h) hh
      rcases Bool.or_eq_true_iff.mp hpass with hmem | hstale
      · have hmem : h ∈ seen := List.contains_iff_mem.mp hmem
        exact Or.inl ((hseen h (hthere h hmem)).mpr hmem)
      · exact Or.inr (by simpa [Store.contains] using hstale)
    obtain ⟨visited', stale, hsame, hpass⟩ := exists_walk_passing search
      (pending.dropWhile fun h => seen.contains h || !s.contains h) hpassed
    rw [List.takeWhile_append_dropWhile] at hpass
    suffices hrest : ∃ visits,
      search.Walk s visited' (pending.dropWhile fun h => seen.contains h || !s.contains h)
        visits (roam found search.next s (steps + 1) seen pending) by
      obtain ⟨visits, hw⟩ := hrest
      exact ⟨stale ++ visits, hpass visits _ hw⟩
    rw [roam]
    split
    · rename_i hnil
      rw [hnil]
      exact ⟨[], .done⟩
    · rename_i h rest hcons
      rw [hcons]
      have hstop := List.head?_dropWhile_not (fun h => seen.contains h || !s.contains h) pending
      rw [hcons] at hstop
      obtain ⟨hunseen, hhere⟩ := Bool.or_eq_false_iff.mp hstop
      have hunseen : h ∉ seen := by simpa using hunseen
      have hhere : s.contains h = true := by simpa using hhere
      have hnew : h ∉ visited' := fun hmem => hunseen ((hseen h hhere).mp ((hsame h hhere).mp hmem))
      obtain ⟨c, hc⟩ := contains_iff.mp hhere
      rw [hc]
      dsimp only
      have hfinds := hfound h c hc
      cases hresult : found h c with
      | some a => exact ⟨[h], .found hnew hc (hresult ▸ hfinds)⟩
      | none =>
        have hseen : ∀ x, s.contains x = true → (x ∈ h :: visited' ↔ x ∈ h :: seen) :=
          fun x hx => by
          rw [List.mem_cons, List.mem_cons, hsame x hx, hseen x hx]
        obtain ⟨visits, hw⟩ := ih (search.next h c ++ rest) (List.nodup_cons.mpr ⟨hunseen, hnodup⟩)
          (List.forall_mem_cons.mpr ⟨hhere, hthere⟩) (by rw [List.length_cons]; omega) hseen
        exact ⟨h :: visits, .onward hnew hc (hresult ▸ hfinds) hw⟩

/-- With as many steps as there are slots, the walk with a bound is the walk. -/
theorem exists_concludes_roam (search : Search α)
    (hfound : ∀ h c, s.get? h = some c → search.finds h c (found h c))
    (start : List Handle) : ∃ visits,
      search.Concludes s start visits (roam found search.next s s.size [] start) := by
  obtain ⟨visits, hw⟩ :=
    exists_walk_roam hfound start List.nodup_nil (fun _ hh => absurd hh List.not_mem_nil)
    (Nat.le_refl s.size) fun _ _ => Iff.rfl
  exact ⟨visits, hw.concludes⟩

/-- A walk that comes to an end finds what the walk with a bound does, whether or not other walks
    come to one. -/
theorem Walk.roam_eq
    (hfound : ∀ h c result, s.get? h = some c → search.finds h c result → found h c = result)
    {start : List Handle} (hw : search.Walk s [] start visits result) :
    roam found search.next s s.size [] start = result := by
  obtain ⟨visits', hconcludes⟩ :=
    exists_concludes_roam (s := s) (plain found search.next) (fun _ _ _ => rfl) start
  exact (hconcludes.only _ _ (hw.mono hfound)).2.symm

end Search

/-! ## Trails -/

namespace Store

variable {α : Type} (s : Store)

/-- What is found along a trail is found by a walk along its link. -/
theorem findSome?_trailFrom (find : Handle → Composite → Option α)
    (link : Handle → Composite → Option Handle)
    (steps : Nat) (visited : List Handle) (start : Option Handle) :
    ((s.trailFrom link steps visited start).findSome? fun e => find e.1 e.2) =
      roam find (fun h c => (link h c).toList) s steps visited start.toList := by
  induction steps generalizing visited start with
  | zero => rfl
  | succ steps ih =>
    cases start with
    | none => rfl
    | some h =>
      rw [trailFrom, roam, Option.toList_some, List.dropWhile_cons]
      cases hmem : visited.contains h with
      | true => rfl
      | false =>
        cases hget : s.get? h with
        | none => simp [contains, hget]
        | some c =>
          simp only [contains, hget, Option.isSome_some, Bool.not_true, Bool.or_self,
            Bool.false_eq_true, if_false, List.append_nil, List.findSome?_cons]
          rw [ih]
          cases find h c <;> rfl

theorem exists_concludes_trail (find : Handle → Composite → Option α)
    (link : Handle → Composite → Option Handle) (start : Option Handle) :
    ∃ visits, (Search.plain find fun h c => (link h c).toList).Concludes s start.toList visits
      ((s.trail link start).findSome? fun e => find e.1 e.2) := by
  rw [trail, findSome?_trailFrom]
  exact Search.exists_concludes_roam _ (fun _ _ _ => rfl) _

/-- Only the first composite is met where there is no link. -/
theorem take_one_trailFrom (link : Handle → Composite → Option Handle) (steps : Nat)
    (visited : List Handle) (start : Option Handle) :
    (s.trailFrom link steps visited start).take 1 =
      s.trailFrom (fun _ _ => none) steps visited start := by
  cases steps with
  | zero => rfl
  | succ steps =>
    cases start with
    | none => rfl
    | some h =>
      rw [trailFrom, trailFrom]
      split
      · rfl
      · split
        · rfl
        · cases steps <;> rfl

end Store

/-- Looking for the first that has something, as looking for what it has. -/
theorem map_find?_eq_findSome? {α β : Type} (p : α → Bool) (f : α → β) (l : List α) :
    (l.find? p).map f = l.findSome? fun a => if p a then some (f a) else none := by
  induction l with
  | nil => rfl
  | cons a l ih =>
    rw [List.find?_cons, List.findSome?_cons]
    cases p a with
    | true => rfl
    | false => exact ih

/-! ## Links -/

namespace Search

/-- Nothing; it goes down from object to object. -/
def sinking : Search Unit := .plain (fun _ _ => none) fun _ c => c.links.sub.toList

/-- What is around an object and is none itself. -/
def surrounding : Search Handle :=
  .plain (fun h c => if c.is .object then none else some h)
    fun _ c => if c.is .object then c.links.scope.toList else []

/-- A declaration of an operator with a modifier, from a composite outwards. -/
def declaring (symbol modifier : String) : Search Operator :=
  .plain (fun _ c => (c.operators.get? symbol).bind fun operators =>
    operators.reverse.find? fun operator => operator.modifiers.contains modifier) fun _ c =>
      c.links.scope.toList

/-- A composite that a root retains, from retainer to retainer. -/
def retaining (roots : List Handle) : Search Unit :=
  .plain (fun _ c => if c.links.retainers.any roots.contains then some () else none) fun _ c =>
    c.links.retainers

/-- An object of a class, from an object upwards. -/
def delegating (classHandle : Handle) : Search (Handle × Composite) :=
  .plain (fun h c => if c.links.currentType == some classHandle then some (h, c) else none)
    fun _ c => c.links.super.toList

end Search

namespace Lookup

variable {lookup : Lookup}

theorem exists_concludes_operator? (start : Handle) (symbol modifier : String) :
    ∃ visits, (Search.declaring symbol modifier).Concludes lookup.store [start] visits
      (lookup.operator? start symbol modifier) :=
  lookup.store.exists_concludes_trail (fun _ c => (c.operators.get? symbol).bind fun operators =>
    operators.reverse.find? fun operator : Operator => operator.modifiers.contains modifier)
    (fun _ c => c.links.get .scope) (some start)

/-- The composite that describes a value is what a walk around it finds. -/
theorem exists_concludes_valueType {value : Value} {h : Handle} (hvalue : value.handle? = some h) :
    ∃ visits level, Search.surrounding.Concludes lookup.store [h] visits level ∧
      lookup.valueType (some value) = .ofPart
        { inout := value.primitive == .pointer, reference := some (level.getD h),
          isSelf := level == some h } := by
  obtain ⟨visits, hconcludes⟩ := lookup.store.exists_concludes_trail
    (fun h c => if c.is .object then none else some h)
    (fun _ c => if c.is .object then c.links.scope else none) (some h)
  have hsearch : (Search.plain (fun h c => if c.is .object then none else some h)
      fun _ c => (if c.is .object then c.links.scope else none).toList) = .surrounding := by
    rw [Search.surrounding]
    congr 1
    funext _ c
    cases c.is .object <;> rfl
  rw [hsearch] at hconcludes
  refine ⟨visits, _, hconcludes, ?_⟩
  have hfound : ∀ l : List (Handle × Composite),
      (l.findSome? fun e => if e.2.is .object then none else some e.1) =
        (l.find? fun e => !e.2.is .object).map (·.1) := by
    intro l
    rw [map_find?_eq_findSome?]
    congr 1
    funext e
    cases e.2.is .object <;> rfl
  rw [hfound, valueType, hvalue]
  dsimp only
  split
  · rename_i level _ hlevel
    rw [hlevel]
    by_cases hself : level = h
    · simp [hself]
    · have hother : (some level == some h) = false := by simpa using hself
      rw [if_neg hself, Option.map_some, Option.getD_some, hother]
  · rename_i hnone
    rw [hnone]
    rfl

/-- The lowest object is the last that a walk down visits. -/
theorem exists_walk_lowestFrom {steps : Nat} {visited : List Handle} (lowest : Handle)
    (hnodup : visited.Nodup) (hthere : ∀ h ∈ visited, h = lowest ∨ lookup.store.contains h = true)
    (henough : lookup.store.size < steps + visited.length) :
    ∃ visits, Search.sinking.Walk lookup.store visited
      (lookup.store.link? .sub lowest).toList visits none ∧
      lookup.lowestFrom steps visited lowest = visits.getLast?.getD lowest := by
  induction steps generalizing visited lowest with
  | zero =>
    -- More composites than there are slots were visited, so the last handle names none.
    refine ⟨[], ?_, rfl⟩
    cases hlink : lookup.store.link? .sub lowest with
    | none => exact .done
    | some sub =>
      obtain ⟨c, hc, _⟩ := Option.bind_eq_some_iff.mp hlink
      have hall : ∀ h ∈ visited, lookup.store.contains h = true := by
        intro h hh
        rcases hthere h hh with rfl | hthere
        · exact contains_of_get? hc
        · exact hthere
      have hle := length_le_size hnodup hall
      omega
  | succ steps ih =>
    rw [lowestFrom]
    cases hlink : lookup.store.link? .sub lowest with
    | none => exact ⟨[], .done, rfl⟩
    | some sub =>
      obtain ⟨c, hc, _⟩ := Option.bind_eq_some_iff.mp hlink
      dsimp only
      by_cases hmem : sub ∈ visited
      · rw [if_pos (List.contains_iff_mem.mpr hmem)]
        exact ⟨[], .again hmem .done, rfl⟩
      · rw [if_neg (by simpa using hmem)]
        have hthere' : ∀ h ∈ sub :: visited, h = sub ∨ lookup.store.contains h = true := by
          intro h hh
          rcases List.mem_cons.mp hh with rfl | hh
          · exact Or.inl rfl
          · rcases hthere h hh with rfl | hthere
            · exact Or.inr (contains_of_get? hc)
            · exact Or.inr hthere
        obtain ⟨visits, hw, hlowest⟩ := ih sub (List.nodup_cons.mpr ⟨hmem, hnodup⟩) hthere'
          (by rw [List.length_cons]; omega)
        refine ⟨sub :: visits, ?_, ?_⟩
        · cases hget : lookup.store.get? sub with
          | none =>
            rw [Store.link?, hget] at hw
            exact .stale hmem hget hw
          | some d =>
            have hnext : (lookup.store.link? .sub sub).toList =
              Search.sinking.next sub d ++ [] := by
              rw [Store.link?, hget, List.append_nil]
              rfl
            rw [hnext] at hw
            exact .onward hmem hget rfl hw
        · rw [hlowest, List.getLast?_cons]
          rfl

theorem exists_concludes_lowestSub (object : Handle) :
    ∃ visits, Search.sinking.Concludes lookup.store
      (lookup.store.link? .sub object).toList visits none ∧
      lookup.lowestSub object = visits.getLast?.getD object := by
  obtain ⟨visits, hw, hlowest⟩ := exists_walk_lowestFrom object List.nodup_nil
    (fun _ hh => absurd hh List.not_mem_nil) (Nat.lt_succ_self lookup.store.size)
  exact ⟨visits, hw.concludes, hlowest⟩

end Lookup

/-- Looking for roots is a walk over retainers. -/
theorem Store.reachesFrom_eq_roam (s : Store) (roots : List Handle) (steps : Nat)
    (visited pending : List Handle) : s.reachesFrom roots steps visited pending =
      (roam (fun _ c => if c.links.retainers.any roots.contains then some () else none)
        (fun _ c => c.links.retainers) s steps visited pending).isSome := by
  induction steps generalizing visited pending with
  | zero => rfl
  | succ steps ih =>
    rw [reachesFrom, roam]
    cases hcons : pending.dropWhile fun h => visited.contains h || !s.contains h with
    | nil => rfl
    | cons h rest =>
      have hstop := List.head?_dropWhile_not (fun h => visited.contains h || !s.contains h) pending
      rw [hcons] at hstop
      obtain ⟨c, hc⟩ : ∃ c, s.get? h = some c :=
        contains_iff.mp (by simpa using (Bool.or_eq_false_iff.mp hstop).2)
      dsimp only
      rw [hc, retainers_of_get? hc, ih]
      dsimp only
      cases c.links.retainers.any roots.contains <;> rfl

theorem Store.exists_concludes_reaches (s : Store) (roots : List Handle) (target : Handle) :
    ∃ visits result, (Search.retaining roots).Concludes s [target] visits result ∧
      s.reaches roots target = (roots.contains target || result.isSome) := by
  obtain ⟨visits, hconcludes⟩ :=
    Search.exists_concludes_roam (s := s) (.retaining roots) (fun _ _ _ => rfl) [target]
  refine ⟨visits, _, hconcludes, ?_⟩
  rw [reaches, reachesFrom_eq_roam]
  rfl

/-! ## Initializers -/

namespace Machine

/-- An object under creation is delegated to if it is the first of its class that a
    walk up finds. -/
theorem exists_concludes_delegated? (m : Machine) (scope classHandle : Handle) :
    ∃ visits result, (Search.delegating classHandle).Concludes m.store
        ((m.store.link? .current scope).filter (m.store.isKind .object)).toList visits result ∧
      m.delegated? scope classHandle =
        (result.filter fun e => e.2.life == .creating).map (·.1) := by
  obtain ⟨visits, hconcludes⟩ := m.store.exists_concludes_trail
    (fun h c => if c.links.currentType == some classHandle then some (h, c) else none)
    (fun _ c => c.links.get .super) ((m.store.link? .current scope).filter (m.store.isKind .object))
  refine ⟨visits, _, hconcludes, ?_⟩
  have hfound := map_find?_eq_findSome?
    (fun e : Handle × Composite => e.2.links.currentType == some classHandle) id
    (m.store.slotTrail .super ((m.store.link? .current scope).filter (m.store.isKind .object)))
  rw [Option.map_id] at hfound
  rw [delegated?]
  exact congrArg (fun result =>
    (result.filter fun e : Handle × Composite => e.2.life == .creating).map (·.1)) hfound

end Machine

namespace Store

/-- Whether objects are made of a composite. -/
def isInstantiable (s : Store) (h : Handle) : Bool := ((s.kind? h).map Kind.instantiable).getD false

theorem kind?_eq_bind_type? (s : Store) (h : Handle) :
    s.kind? h = (s.type? h).bind TypeTree.kind? := by
  rw [kind?, type?]
  cases s.get? h <;> rfl

theorem isInstantiable_of_type? {s t : Store} {h : Handle} (htype : t.type? h = s.type? h) :
    t.isInstantiable h = s.isInstantiable h := by
  rw [isInstantiable, kind?_eq_bind_type?, htype, ← kind?_eq_bind_type?, isInstantiable]

theorem contains_of_isInstantiable {s : Store} {h : Handle} (hh : s.isInstantiable h = true) :
    s.contains h = true := by
  cases hget : s.get? h with
  | none =>
    rw [isInstantiable, kind?, hget] at hh
    cases hh
  | some c => exact contains_of_get? hget

/-- Nothing; it goes up from class to class, by what the types say they inherit. -/
def ascending (s : Store) : Search Unit :=
  .plain (fun _ _ => none) fun _ c => c.type.inherited?.toList.filter s.isInstantiable

theorem contains_eq_isSome_type? (s : Store) (h : Handle) : s.contains h = (s.type? h).isSome := by
  rw [contains, type?, Option.isSome_map]

theorem Fills.type?_eq {s t : Store} {x : Handle} {slots : List Slot}
    (h : s.Fills x slots t) (k : Handle) : t.type? k = s.type? k := by
  by_cases hkx : k = x
  · rw [hkx, h.type]
  · exact type?_of_bare? (h.others k hkx)

/-- A store to which only objects were added. -/
structure Peopled (s t : Store) : Prop where
  old : ∀ h, s.contains h = true → t.type? h = s.type? h
  new : ∀ h, s.contains h = false → t.isInstantiable h = false

namespace Peopled

variable {s t u : Store} {x : Handle}

theorem refl (s : Store) : s.Peopled s where
  old _ _ := rfl
  new h hh := by
    cases hi : s.isInstantiable h with
    | false => rfl
    | true => exact absurd (contains_of_isInstantiable hi) (by simp [hh])

theorem isInstantiable (h : s.Peopled t) (x : Handle) :
    t.isInstantiable x = s.isInstantiable x := by
  cases hx : s.contains x with
  | true => exact isInstantiable_of_type? (h.old x hx)
  | false => rw [h.new x hx, (refl s).new x hx]

/-- One more object is made. -/
theorem made (h : s.Peopled t) {classHandle : Handle} {filled : List Slot}
    (hmade : t.Made (objectType classHandle) filled x u) : s.Peopled u where
  old k hk := by
    have hthere : t.contains k = true := by
      rw [contains_eq_isSome_type?, h.old k hk, ← contains_eq_isSome_type?, hk]
    exact (type?_of_bare? (hmade.old k hthere)).trans (h.old k hk)
  new k hk := by
    by_cases hkx : k = x
    · rw [hkx, Store.isInstantiable, kind?_eq_bind_type?, hmade.type]
      rfl
    · exact (isInstantiable_of_type? (type?_of_bare? (hmade.others k hkx))).trans (h.new k hk)

/-- Slots or members of a composite are set. -/
theorem fills (h : s.Peopled t) {slots : List Slot} (hfills : t.Fills x slots u) : s.Peopled u where
  old k hk := (hfills.type?_eq k).trans (h.old k hk)
  new k hk := (isInstantiable_of_type? (hfills.type?_eq k)).trans (h.new k hk)

end Peopled

end Store

theorem Ends.and {α : Type} {m : Machine} {x : Run α} {P Q : α → Machine → Prop} (hP : Ends m x P)
    (hQ : Ends m x Q) : Ends m x fun a m' => P a m' ∧ Q a m' := by
  obtain ⟨a, m', hrun, hP⟩ := hP
  obtain ⟨_, _, hrun', hQ⟩ := hQ
  cases hrun.symm.trans hrun'
  exact ⟨a, m', hrun, hP, hQ⟩

section Lineages

variable {r : Rules} {s : Store} {m m' : Machine} {visited : List Handle}

/-- Objects were made, the first of which is given: one that was not there for each
    class on the way up. -/
def Store.Builds (s : Store) (m : Machine) (visited : List Handle)
    (level object : Option Handle) (m' : Machine) : Prop :=
  ∃ visits objects, s.ascending.Walk s visited (level.toList.filter s.isInstantiable) visits none ∧
    object = objects.head? ∧
    List.Forall₂ (fun o c => m.store.contains o = false ∧ m'.store.link? .currentType o = some c)
    objects visits

/-- Nothing is made where there is no class to go on with, or where it was visited. -/
theorem Store.Builds.nothing {level : Option Handle}
    (hlevel : ∀ l ∈ level, s.isInstantiable l = true → l ∈ visited) :
    s.Builds m visited level none m := by
  refine ⟨[], [], ?_, rfl, .nil⟩
  cases level with
  | none => exact .done
  | some l =>
    rw [Option.toList_some, List.filter_singleton]
    cases hl : s.isInstantiable l with
    | false => exact .done
    | true => exact .again (hlevel l rfl hl) .done

/-- An object for a class comes before those for the classes above. -/
theorem Store.Builds.cons {m₂ : Machine} {l x : Handle} {c : Composite} {object : Option Handle}
    (hi : s.isInstantiable l = true) (hnew : l ∉ visited) (hc : s.get? l = some c)
    (hx : m.store.contains x = false) (hclass : m'.store.link? .currentType x = some l)
    (hthere : ∀ k, m.store.contains k = true → m₂.store.contains k = true)
    (h : s.Builds m₂ (l :: visited) c.type.inherited? object m') :
      s.Builds m visited (some l) (some x) m' := by
  obtain ⟨visits, objects, hwalk, -, hobjects⟩ := h
  refine ⟨l :: visits, x :: objects, ?_, rfl,
    .cons ⟨hx, hclass⟩ (hobjects.imp fun o _ ho => ⟨?_, ho.2⟩)⟩
  · rw [Option.toList_some, List.filter_singleton, hi]
    refine .onward hnew hc rfl ?_
    rw [List.append_nil]
    exact hwalk
  · exact Bool.eq_false_iff.mpr fun hmem => absurd (hthere o hmem) (Bool.eq_false_iff.mp ho.1)

/-- The classes that objects are made for are those that a walk up meets in the
    store from before. -/
theorem buildChain_builds (generics : List TypeTree) {steps : Nat} {derived level : Option Handle}
    (hs : s.Peopled m.store)
    (hderived : ∀ d ∈ derived, m.store.isAlive d = true ∧ m.store.link? .super d = none ∧
      m.store.link? .superType d = none)
    (hnodup : visited.Nodup) (hthere : ∀ h ∈ visited, s.contains h = true)
    (henough : s.size ≤ steps + visited.length) :
    Ends m (buildChain r generics steps visited derived level) fun object m' =>
      s.Builds m visited level object m' := by
  induction steps generalizing m visited derived level with
  | zero =>
    refine Ends.pure (.nothing fun l _ hl => ?_)
    exact mem_of_size_le_length hnodup hthere (by omega) (contains_of_isInstantiable hl)
  | succ steps ih =>
    cases level with
    | none => exact Ends.pure (.nothing fun _ hl => absurd hl (by simp))
    | some l =>
      refine Ends.store_bind ?_
      dsimp only
      split
      · rename_i hstop
        refine Ends.pure (.nothing fun l' hl' hi => ?_)
        cases hl'
        rw [← hs.isInstantiable, Store.isInstantiable] at hi
        rw [hi] at hstop
        simpa using hstop
      rename_i hgo
      obtain ⟨hi, hnew⟩ : s.isInstantiable l = true ∧ l ∉ visited := by
        rw [← hs.isInstantiable, Store.isInstantiable]
        simpa using hgo
      obtain ⟨c, hc⟩ := contains_iff.mp (contains_of_isInstantiable hi)
      refine (createObject_makes derived).bind ?_
      rintro x m₁ ⟨hmade, hclass⟩
      -- Whatever is set next leaves the slots of the new object alone, and what the classes
      -- inherit.
      have hrest : ∀ m₂ : Machine, ∀ y slots,
        m₁.store.Fills y slots m₂.store → m₂.store.isAlive x = true →
          (∀ slot, m₂.store.link? slot x = m₁.store.link? slot x) →
          Ends m₂ (do
            let above := ((← store).get? l).bind fun composite => composite.type.inherited?
            let _ ← buildChain r generics steps (l :: visited) (some x) above
            return some x) fun object m' => s.Builds m visited (some l) object m' := by
        intro m₂ y slots hfills halive hlinks
        have hs₂ : s.Peopled m₂.store := (hs.made hmade).fills hfills
        have hsuper : m₂.store.link? .super x = none := (hlinks _).trans (hmade.empty _ (by decide))
        have hsuperType : m₂.store.link? .superType x = none :=
          (hlinks _).trans (hmade.empty _ (by decide))
        have hthere₂ : ∀ k, m.store.contains k = true → m₂.store.contains k = true := by
          intro k hk
          rw [contains_eq_isSome_type?, hfills.type?_eq, ← contains_eq_isSome_type?,
            contains_of_bare? (hmade.old k hk), hk]
        have habove : ((m₂.store.get? l).bind fun c => c.type.inherited?) = c.type.inherited? := by
          have htype : m₂.store.type? l = some c.type := by
            rw [hs₂.old l (contains_of_get? hc), Store.type?, hc]
            rfl
          obtain ⟨d, hd, hdtype⟩ := Option.map_eq_some_iff.mp htype
          rw [hd, Option.bind_some, hdtype]
        refine Ends.store_bind ?_
        dsimp only
        rw [habove]
        have hchain : Ends m₂
            (buildChain r generics steps (l :: visited) (some x) c.type.inherited?) fun object m' =>
              s.Builds m₂ (l :: visited) c.type.inherited? object m' := by
          refine ih hs₂ ?_ (List.nodup_cons.mpr ⟨hnew, hnodup⟩) ?_ ?_
          · intro d hd
            cases hd
            exact ⟨halive, hsuper, hsuperType⟩
          · exact List.forall_mem_cons.mpr ⟨contains_of_get? hc, hthere⟩
          · rw [List.length_cons]
            omega
        refine (hchain.and
          (buildChain_keeps generics steps (l :: visited) halive hsuper hsuperType)).bind ?_
        rintro object m₃ ⟨hbuilds, -, hself⟩
        refine Ends.pure (.cons hi hnew hc ?_ ?_ hthere₂ hbuilds)
        · rw [hmade.next, Store.contains, get?_next]
          rfl
        · rw [hself, hlinks, hclass]
      cases derived with
      | none =>
        refine (bindGenerics_fills hmade.alive l generics).bind fun _ m₂ h => ?_
        exact hrest m₂ x [] h (h.alive.trans hmade.alive) fun slot => h.links slot List.not_mem_nil
      | some d =>
        obtain ⟨halive, hsuper, hsuperType⟩ := hderived d rfl
        have hd := contains_of_isAlive halive
        have hbare := hmade.old d hd
        refine Ends.bind (setSuperLevels_fills (some x) ((isAlive_of_bare? hbare).trans halive)
          ((link?_of_bare? hbare _).trans hsuper) ((link?_of_bare? hbare _).trans hsuperType))
          fun _ m₂ h => ?_
        have hx := h.others x (hmade.ne_of_contains hd).symm
        exact hrest m₂ d _ h ((isAlive_of_bare? hx).trans hmade.alive) fun slot =>
          link?_of_bare? hx slot

/-- What an initializer works on: the object that it is delegated to, or the first of those that are
    made for its class and the classes above. -/
def Machine.Initializes (m : Machine) (scope classHandle : Handle) (object : Option Handle)
    (m' : Machine) : Prop :=
  (m' = m ∧ object.isSome = true ∧ object = m.delegated? scope classHandle) ∨
    ∃ visits objects,
    m.store.ascending.Concludes m.store ([classHandle].filter m.store.isInstantiable) visits none ∧
      object = objects.head? ∧
      List.Forall₂ (fun o c => m.store.contains o = false ∧ m'.store.link? .currentType o = some c)
      objects visits

theorem initializerObject_initializes (scope classHandle : Handle) (generics : List TypeTree) :
    Ends m (initializerObject r scope classHandle generics) (m.Initializes scope classHandle) := by
  have hbuilds : Ends m (buildChain r generics m.store.size [] none (some classHandle))
    fun object m' => m.store.Builds m [] (some classHandle) object m' :=
    buildChain_builds generics (.refl m.store) (fun _ hd => absurd hd (by simp)) List.nodup_nil
      (fun _ hh => absurd hh List.not_mem_nil) (Nat.le_refl _)
  have hmade : Ends m (buildChain r generics m.store.size [] none (some classHandle))
      (m.Initializes scope classHandle) := by
    refine hbuilds.mono ?_
    rintro object m' ⟨visits, objects, hwalk, hrest⟩
    exact Or.inr ⟨visits, objects, hwalk.concludes, hrest⟩
  refine Ends.get_bind ?_
  dsimp only
  cases generics.isEmpty with
  | false => exact Ends.store_bind hmade
  | true =>
    rw [if_pos rfl]
    cases hdelegated : m.delegated? scope classHandle with
    | some object => exact Ends.pure (Or.inl ⟨rfl, rfl, hdelegated.symm⟩)
    | none => exact Ends.store_bind hmade

end Lineages

end CompositeGraph
