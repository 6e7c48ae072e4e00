/-
  NAMED ENTRIES in the order they were first put in.

  A name has at most one entry.  Putting under a name that is there replaces its value and keeps its
  place; a new name goes to the end; taking a name out keeps the order of the others.

    1. LISTS.    `Assoc.place`, on lists of named values.
    2. ENTRIES.  `Assoc`, a list that has no name twice; `get?`, `put`, `remove`.
-/

namespace CompositeGraph

variable {α : Type}

/-! ## Lists -/

namespace Assoc

/-- Replaces the value under a name in its place, or adds the name at the end. -/
def place (name : String) (value : α) : List (String × α) → List (String × α)
  | [] => [(name, value)]
  | entry :: rest =>
    if entry.1 == name then (name, value) :: rest else entry :: place name value rest

/-- The names are as before, but for one that is new. -/
theorem mem_names_place {name other : String} {value : α} {entries : List (String × α)} :
    other ∈ (place name value entries).map Prod.fst ↔ other = name ∨
      other ∈ entries.map Prod.fst := by
  induction entries with
  | nil => simp [place]
  | cons entry rest ih =>
    rw [place]
    split
    · rename_i h
      have h : entry.1 = name := by simpa using h
      simp [h]
    · rw [List.map_cons, List.mem_cons, ih, List.map_cons, List.mem_cons]
      constructor
      · rintro (h | h | h)
        · exact Or.inr (Or.inl h)
        · exact Or.inl h
        · exact Or.inr (Or.inr h)
      · rintro (h | h | h)
        · exact Or.inr (Or.inl h)
        · exact Or.inl h
        · exact Or.inr (Or.inr h)

theorem nodup_names_place (name : String) (value : α) {entries : List (String × α)}
    (h : (entries.map Prod.fst).Nodup) : ((place name value entries).map Prod.fst).Nodup := by
  induction entries with
  | nil => simp [place]
  | cons entry rest ih =>
    obtain ⟨hnew, hrest⟩ := List.nodup_cons.mp h
    rw [place]
    split
    · rename_i he
      have he : entry.1 = name := by simpa using he
      rw [List.map_cons, ← he]
      exact List.nodup_cons.mpr ⟨hnew, hrest⟩
    · rename_i he
      have he : entry.1 ≠ name := by simpa using he
      refine List.nodup_cons.mpr ⟨fun hmem => ?_, ih hrest⟩
      rcases mem_names_place.mp hmem with hmem | hmem
      · exact he hmem
      · exact hnew hmem

theorem find?_place_self (name : String) (value : α) (entries : List (String × α)) :
    (place name value entries).find? (fun entry => entry.1 == name) = some (name, value) := by
  induction entries with
  | nil => simp [place]
  | cons entry rest ih =>
    by_cases h : entry.1 = name
    · simp [place, h]
    · simpa [place, h] using ih

theorem find?_place_ne {name other : String} (value : α) (entries : List (String × α))
    (h : name ≠ other) : (place name value entries).find? (fun entry => entry.1 == other) =
      entries.find? fun entry => entry.1 == other := by
  induction entries with
  | nil => simp [place, h]
  | cons entry rest ih =>
    by_cases hn : entry.1 = name
    · simp [place, h, hn]
    · by_cases ho : entry.1 = other
      · have hne : other ≠ name := fun he => h he.symm
        simp [place, ho, hne]
      · simpa [place, hn, ho] using ih

end Assoc

/-! ## Entries -/

/-- Values under names, in the order of first insertion. -/
structure Assoc (α : Type) where
  entries : List (String × α)
  distinct : (entries.map Prod.fst).Nodup

namespace Assoc

/-- No entries. -/
def empty : Assoc α := ⟨[], List.nodup_nil⟩

/-- The value under a name. -/
def get? (named : Assoc α) (name : String) : Option α :=
  (named.entries.find? fun entry => entry.1 == name).map (·.2)

/-- Puts a value under a name. -/
def put (name : String) (value : α) (named : Assoc α) : Assoc α :=
  ⟨place name value named.entries, nodup_names_place name value named.distinct⟩

/-- Takes a name out. -/
def remove (name : String) (named : Assoc α) : Assoc α :=
  ⟨named.entries.filter fun entry => entry.1 != name,
    named.distinct.sublist (List.filter_sublist.map _)⟩

/-- The values in order. -/
def values (named : Assoc α) : List α := named.entries.map (·.2)

/-- Entries put in one after the other; of a repeated name the last value counts. -/
def ofList (entries : List (String × α)) : Assoc α :=
  entries.foldl (fun named entry => named.put entry.1 entry.2) empty

theorem get?_put_self (named : Assoc α) (name : String) (value : α) :
    get? (put name value named) name = some value := by
  rw [get?, put, find?_place_self]; rfl

theorem get?_put_ne (named : Assoc α) {name other : String} (value : α) (h : name ≠ other) :
    get? (put name value named) other = get? named other := by
  rw [get?, put, find?_place_ne value _ h]; rfl

end Assoc

end CompositeGraph
