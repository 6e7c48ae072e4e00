/-
  DICTIONARIES have one entry for each key.

  Keys are compared as values are: the two zeros are one key, and so are two dictionaries or types
  that are equal part by part; the two infinities are two keys, also where they stand in a literal
  inside a type.  Because equality is symmetric and transitive, the keys that find an entry are the
  same before and after its value is replaced; because a key without a NaN is equal to itself, what
  is put in under it is found.

    1. ENTRIES.     `Dictionary.Has` and `Dictionary.Distinct`; an entry and those around it.
    2. PUTTING IN.  An entry keeps its place, or a new one comes last.
    3. TAKING OUT.  One entry goes, and the others close up.
    4. HISTORIES.   `Dictionary.Made`: what comes of any number of changes to an
                    empty dictionary or an array.
-/
import CompositeGraph.Proofs.Equality

namespace CompositeGraph

namespace Dictionary

variable {d before after : Dictionary} {key held other : Value} {old value : Option Value}

/-! ## Entries -/

/-- An entry has an equal key. -/
def Has (d : Dictionary) (key : Value) : Prop := ∃ entry ∈ d, (entry.1 == key) = true

/-- No two keys are equal. -/
def Distinct (d : Dictionary) : Prop := d.Pairwise fun a b => (a.1 == b.1) = false

theorem not_has_iff : ¬d.Has key ↔ ∀ entry ∈ d, (entry.1 == key) = false := by simp [Has]

/-- The entry of a key stands somewhere. -/
theorem exists_split_of_has (h : d.Has key) :
    ∃ before held old after, d = before ++ (held, old) :: after ∧ (held == key) = true := by
  obtain ⟨⟨held, old⟩, hmem, hkey⟩ := h
  obtain ⟨before, after, rfl⟩ := List.append_of_mem hmem
  exact ⟨before, held, old, after, rfl, hkey⟩

/-- What differs from a key differs from each that is equal to it. -/
theorem beq_eq_false_of_beq (hkey : (held == key) = true) (hother : (other == held) = false) :
    (other == key) = false := by
  refine Bool.eq_false_iff.mpr fun h => ?_
  rw [BEq.trans h (BEq.symm hkey)] at hother
  cases hother

/-- The entries around that of a key have other keys. -/
theorem Distinct.not_has_around (h : Distinct (before ++ (held, old) :: after))
    (hkey : (held == key) = true) : ¬Has before key ∧ ¬Has after key := by
  obtain ⟨_, hcons, hacross⟩ := List.pairwise_append.mp h
  obtain ⟨hafter, _⟩ := List.pairwise_cons.mp hcons
  refine ⟨not_has_iff.mpr fun entry hentry => ?_, not_has_iff.mpr fun entry hentry => ?_⟩
  · exact beq_eq_false_of_beq hkey (hacross entry hentry _ List.mem_cons_self)
  · exact beq_eq_false_of_beq hkey (BEq.comm.trans (hafter entry hentry))

theorem get?_of_not_has (h : ¬d.Has key) : get? d key = none := by
  rw [get?, List.find?_eq_none.mpr fun entry hentry => by simp [not_has_iff.mp h entry hentry]]
  rfl

/-! ## Putting in -/

theorem insert_of_not_has (h : ¬d.Has key) (value : Option Value) :
    insert key value d = d ++ [(key, value)] := by
  rw [not_has_iff] at h
  induction d with
  | nil => rfl
  | cons entry rest ih =>
    obtain ⟨hentry, hrest⟩ := List.forall_mem_cons.mp h
    rw [insert, if_neg (by simp [hentry]), ih hrest, List.cons_append]

theorem insert_at (hbefore : ¬Has before key) (hkey : (held == key) = true) (value : Option Value) :
    insert key value (before ++ (held, old) :: after) = before ++ (held, value) :: after := by
  rw [not_has_iff] at hbefore
  induction before with
  | nil => rw [List.nil_append, insert, if_pos hkey, List.nil_append]
  | cons entry rest ih =>
    obtain ⟨hentry, hrest⟩ := List.forall_mem_cons.mp hbefore
    rw [List.cons_append, insert, if_neg (by simp [hentry]), ih hrest, List.cons_append]

/-- Putting in under a key leaves no two keys equal. -/
theorem Distinct.insert (h : d.Distinct) (key : Value) (value : Option Value) :
    Distinct (insert key value d) := by
  by_cases hhas : d.Has key
  · obtain ⟨before, held, old, after, rfl, hkey⟩ := exists_split_of_has hhas
    rw [insert_at (h.not_has_around hkey).1 hkey]
    -- Only the value of the entry is another.
    rw [Distinct, ← List.pairwise_map (f := Prod.fst) (R := fun a b => (a == b) = false)] at h ⊢
    simpa using h
  · rw [insert_of_not_has hhas]
    refine List.pairwise_append.mpr ⟨h, List.pairwise_singleton .., fun entry hentry new hnew => ?_⟩
    rw [List.mem_singleton.mp hnew]
    exact not_has_iff.mp hhas entry hentry

/-- Under other keys nothing changes. -/
theorem get?_insert_of_ne (hother : (other == key) = false) (value : Option Value)
    (d : Dictionary) : get? (insert key value d) other = get? d other := by
  have hkey : (key == other) = false := BEq.comm.trans hother
  induction d with
  | nil => simp [insert, get?, hkey]
  | cons entry rest ih =>
    rw [insert]
    split
    · rename_i hentry
      have hmiss : (entry.1 == other) = false :=
        BEq.comm.trans (beq_eq_false_of_beq (BEq.symm hentry) hother)
      simp [get?, hmiss]
    · rw [get?] at ih ⊢
      rw [get?, List.find?_cons, List.find?_cons]
      cases entry.1 == other with
      | true => rfl
      | false => exact ih

/-! ## Taking out -/

theorem remove_of_not_has (h : ¬d.Has key) : remove d key = d :=
  List.filter_eq_self.mpr fun entry hentry => by simp [not_has_iff.mp h entry hentry]

theorem remove_at (hbefore : ¬Has before key) (hafter : ¬Has after key)
    (hkey : (held == key) = true) :
    remove (before ++ (held, old) :: after) key = before ++ after := by
  have hfilter : remove (before ++ (held, old) :: after) key = remove before key ++
    remove after key := by
    simp [remove, List.filter_append, hkey]
  rw [hfilter, remove_of_not_has hbefore, remove_of_not_has hafter]

theorem Distinct.remove (h : d.Distinct) (key : Value) : Distinct (remove d key) :=
  List.Pairwise.filter _ h

theorem not_has_remove (d : Dictionary) (key : Value) : ¬(remove d key).Has key := by
  refine not_has_iff.mpr fun entry hentry => ?_
  simpa using (List.mem_filter.mp hentry).2

theorem removes_iff : removes d key = true ↔ d.Has key := by
  rw [removes, bne_iff_ne, remove, Ne, List.length_filter_eq_length_iff]
  simp [Has]

theorem get?_remove_of_ne (hother : (other == key) = false) (d : Dictionary) :
    get? (remove d key) other = get? d other := by
  have hkey : (key == other) = false := BEq.comm.trans hother
  have hsame : (fun entry : Value × Option Value =>
    decide ((!(entry.1 == key)) = true ∧ (entry.1 == other) = true)) =
      fun entry => entry.1 == other := by
    funext entry
    cases hentry : entry.1 == other with
    | false => simp
    | true =>
      have hmiss : (entry.1 == key) = false :=
        BEq.comm.trans (beq_eq_false_of_beq (BEq.symm hentry) hkey)
      simp [hmiss]
  rw [get?, remove, List.find?_filter, hsame, get?]

/-! ## Histories -/

/-- Places are counted in 64 bits, and have different keys up to that. -/
theorem eq_of_ofNat_eq {i j : Nat} (hi : i < 2 ^ 64) (hj : j < 2 ^ 64)
    (h : Int64.ofNat i = Int64.ofNat j) : i = j := by
  have hbits : BitVec.ofNat 64 i = BitVec.ofNat 64 j := congrArg Int64.toBitVec h
  have hmod : i % 2 ^ 64 = j % 2 ^ 64 := congrArg BitVec.toNat hbits
  rwa [Nat.mod_eq_of_lt hi, Nat.mod_eq_of_lt hj] at hmod

theorem distinct_ofValues {values : List (Option Value)} (h : values.length ≤ 2 ^ 64) :
    Distinct (ofValues values) := by
  rw [Distinct, ofValues, List.pairwise_map, List.pairwise_iff_getElem]
  intro i j hi hj hij
  rw [List.length_zipIdx] at hi hj
  simp only [List.getElem_zipIdx, Nat.zero_add]
  refine Bool.eq_false_iff.mpr fun hsame => ?_
  have hplaces : i = j := eq_of_ofNat_eq (by omega) (by omega) (beq_iff_eq.mp hsame)
  omega

/-- A dictionary that was made empty or of values, and then changed under keys without a NaN. -/
inductive Made : Dictionary → Prop
  | empty : Made []
  | ofValues {values : List (Option Value)} (hlength : values.length ≤ 2 ^ 64) :
      Made (ofValues values)
  | insert {d : Dictionary} {key : Value} {value : Option Value} (hd : Made d)
      (hkey : key.NaNFree) :
      Made (insert key value d)
  | remove {d : Dictionary} {key : Value} (hd : Made d) (hkey : key.NaNFree) : Made (remove d key)

theorem Made.distinct (h : d.Made) : d.Distinct := by
  induction h with
  | empty => exact .nil
  | ofValues hlength => exact distinct_ofValues hlength
  | insert _ _ ih => exact ih.insert _ _
  | remove _ _ ih => exact ih.remove _

/-- What a key is for: what is put in under it is found, in its place, until it is taken out. -/
structure Laws (d : Dictionary) (key : Value) : Prop where
  get_insert : ∀ value, get? (insert key value d) key = value
  get_insert_other : ∀ value other,
    (other == key) = false → get? (insert key value d) other = get? d other
  insert_present : ∀ value before held old after,
    d = before ++ (held, old) :: after → (held == key) = true →
    insert key value d = before ++ (held, value) :: after
  insert_absent : ∀ value, ¬d.Has key → insert key value d = d ++ [(key, value)]
  removes_iff_has : removes d key = true ↔ d.Has key
  get_remove : get? (remove d key) key = none
  get_remove_other : ∀ other, (other == key) = false → get? (remove d key) other = get? d other
  remove_present : ∀ before held old after,
    d = before ++ (held, old) :: after → (held == key) = true →
    remove d key = before ++ after
  remove_absent : ¬d.Has key → remove d key = d

/-- However a dictionary was made, no two of its keys are equal, and it is a map for all keys
    without a NaN. -/
theorem laws_of_made (h : d.Made) : d.Distinct ∧ ∀ key : Value, key.NaNFree → d.Laws key := by
  have hdistinct := h.distinct
  refine ⟨hdistinct, fun key hkey => ?_⟩
  exact {
    get_insert := fun value => get?_insert_self (Value.same_self key hkey) value d
    get_insert_other := fun value other hother => get?_insert_of_ne hother value d
    insert_present := by
      rintro value before held old after rfl hheld
      exact insert_at (hdistinct.not_has_around hheld).1 hheld value
    insert_absent := fun value habsent => insert_of_not_has habsent value
    removes_iff_has := removes_iff
    get_remove := get?_of_not_has (not_has_remove d key)
    get_remove_other := fun other hother => get?_remove_of_ne hother d
    remove_present := by
      rintro before held old after rfl hheld
      obtain ⟨hbefore, hafter⟩ := hdistinct.not_has_around hheld
      exact remove_at hbefore hafter hheld
    remove_absent := remove_of_not_has }

/-- A key that is a dictionary with a type in it, which holds an expression with a float. -/
def nestedKey (x : Float) : Value :=
  .dictionary [(.type (.ofPart { value := some (.bare (.literal .float (.float x))) }), none)]

/-- Behind the places of an array there is an entry under a key with a zero. -/
def zeroed : Dictionary :=
  insert (nestedKey 0.0) (some (.integer 1)) (ofValues [none, some (.float 0.5)])

/-- The other zero finds the entry, replaces its value where it stands, and takes it out.  The two
    infinities are different keys, and differ from the zeros. -/
theorem laws_of_made_zeroed :
    zeroed.Made ∧ (nestedKey (-0.0) == nestedKey 0.0) = true ∧
      get? (insert (nestedKey (-0.0)) (some (.integer 2)) zeroed) (nestedKey (-0.0)) =
        some (.integer 2) ∧
      insert (nestedKey (-0.0)) none zeroed = ofValues [none, some (.float 0.5)] ++
        [(nestedKey 0.0, none)] ∧
      removes zeroed (nestedKey (-0.0)) = true ∧
      remove zeroed (nestedKey (-0.0)) = ofValues [none, some (.float 0.5)] ∧
      get? (insert (nestedKey (1.0 / 0.0)) none zeroed) (nestedKey (-1.0 / 0.0)) =
        get? zeroed (nestedKey (-1.0 / 0.0)) := by
  have hfree (x : Float) (h : x.isNaN = false) : (nestedKey x).NaNFree := by
    refine ⟨?_, trivial, trivial⟩
    intro part hpart node hnode y hy
    rw [List.mem_singleton.mp hpart] at hnode
    cases hnode
    rwa [List.mem_singleton.mp hy]
  have hmade : zeroed.Made := .insert (.ofValues (by decide)) (hfree 0.0 (by decide +kernel))
  have hsame : (nestedKey 0.0 == nestedKey (-0.0)) = true := by decide +kernel
  have hlaws := (laws_of_made hmade).2 (nestedKey (-0.0)) (hfree (-0.0) (by decide +kernel))
  have hinfinite :=
    (laws_of_made hmade).2 (nestedKey (1.0 / 0.0)) (hfree (1.0 / 0.0) (by decide +kernel))
  have hsplit : zeroed = ofValues [none, some (.float 0.5)] ++
    (nestedKey 0.0, some (.integer 1)) :: [] := rfl
  refine ⟨hmade, BEq.symm hsame, hlaws.get_insert _,
    hlaws.insert_present _ _ _ _ _ hsplit hsame, ?_, ?_, ?_⟩
  · exact hlaws.removes_iff_has.mpr ⟨(nestedKey 0.0, some (.integer 1)), by simp [hsplit], hsame⟩
  · rw [hlaws.remove_present _ _ _ _ hsplit hsame, List.append_nil]
  · exact hinfinite.get_insert_other _ _ (by decide +kernel)

end Dictionary

end CompositeGraph
