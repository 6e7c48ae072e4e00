/-
  DECODING what was written.

  A decoder reads a document as a value if it gives that value for the draft of the document, as
  long as the document does not nest deeper than is still allowed.  This is said of one document and
  one value, so that it can be put together the way decoders are: a list is read if its items are, a
  record if its fields are.

    1. DEPTH.    `Json.depth`: how deep lists and objects nest.
    2. READING.  `Decoder.Reads`, for leaves and for shapes.
    3. RECORDS.  `Decoder.Fills`: fields written in the order of the declaration,
                 some of them left out.
-/
import CompositeGraph.Json.Decoder
import Mathlib.Algebra.Group.Nat.Defs

namespace CompositeGraph

/-! ## Depth -/

namespace Json

mutual

/-- How deep lists and objects nest. -/
def depth : Json → Nat
  | .list items => depthItems items + 1
  | .object fields => depthFields fields + 1
  | _ => 0

def depthItems : List Json → Nat
  | [] => 0
  | item :: rest => max (depth item) (depthItems rest)

def depthFields : List (String × Json) → Nat
  | [] => 0
  | (_, value) :: rest => max (depth value) (depthFields rest)

end

theorem depthItems_le_iff {items : List Json} {n : Nat} : depthItems items ≤ n ↔ ∀ item ∈ items,
    item.depth ≤ n := by
  induction items with
  | nil => simp [depthItems]
  | cons item rest ih => rw [depthItems, Nat.max_le, ih, List.forall_mem_cons]

theorem depthFields_le_iff {fields : List (String × Json)} {n : Nat} :
    depthFields fields ≤ n ↔ ∀ field ∈ fields, field.2.depth ≤ n := by
  induction fields with
  | nil => simp [depthFields]
  | cons field rest ih => rw [depthFields, Nat.max_le, ih, List.forall_mem_cons]

end Json

namespace Draft

open Json (depth depthItems depthFields)

theorem ofItems_eq_map (items : List Json) : ofItems items = items.map ofJson := by
  induction items with
  | nil => rfl
  | cons item rest ih => rw [ofItems, ih, List.map_cons]

theorem ofFields_eq_map (fields : List (String × Json)) :
    ofFields fields = fields.map fun field => (field.1, ofJson field.2) := by
  induction fields with
  | nil => rfl
  | cons field rest ih => rw [ofFields, ih, List.map_cons]

mutual

/-- A whole document has no fault, if it does not nest too deeply. -/
theorem settle_ofJson {levels : Nat} :
    ∀ {json : Json}, json.depth ≤ levels → (ofJson json).settle levels = .ok ()
  | .null, _ => rfl
  | .bool _, _ => rfl
  | .int _, _ => rfl
  | .float _, _ => rfl
  | .text _, _ => rfl
  | .list items, h => by
    cases levels with
    | zero => exact absurd h (by simp [depth])
    | succ levels =>
      have hitems : settleItems levels (ofItems items) = .ok () :=
        settleItems_ofItems (Nat.le_of_succ_le_succ h)
      rw [ofJson, settle, hitems]
      rfl
  | .object fields, h => by
    cases levels with
    | zero => exact absurd h (by simp [depth])
    | succ levels =>
      have hfields : settleFields levels (ofFields fields) = .ok () :=
        settleFields_ofFields (Nat.le_of_succ_le_succ h)
      rw [ofJson, settle, hfields]
      rfl

theorem settleItems_ofItems {levels : Nat} :
    ∀ {items : List Json}, depthItems items ≤ levels → settleItems levels (ofItems items) = .ok ()
  | [], _ => rfl
  | item :: rest, h => by
    obtain ⟨hitem, hrest⟩ := Nat.max_le.mp h
    rw [ofItems, settleItems, settle_ofJson hitem]
    exact settleItems_ofItems hrest

theorem settleFields_ofFields {levels : Nat} :
    ∀ {fields : List (String × Json)},
      depthFields fields ≤ levels → settleFields levels (ofFields fields) = .ok ()
  | [], _ => rfl
  | (name, value) :: rest, h => by
    obtain ⟨hvalue, hrest⟩ := Nat.max_le.mp h
    rw [ofFields, settleFields, settle_ofJson hvalue]
    exact settleFields_ofFields hrest

end

end Draft

/-! ## Reading -/

namespace Decoder

variable {α β σ : Type} {limit : Nat}

/-- A step that succeeds, and then the rest. -/
theorem bind_eq_ok {ε : Type} {x : Except ε α} {f : α → Except ε β} {a : α} {b : β} (hx : x = .ok a)
    (hf : f a = .ok b) : (x >>= f) = .ok b := by
  rw [hx]
  exact hf

/-- A document is read as a value wherever its nesting is allowed, up to a limit. -/
def Reads (limit : Nat) (decoder : Decoder α) (json : Json) (value : α) : Prop :=
  ∀ pass levels, json.depth ≤ levels → levels ≤ limit →
    decoder pass levels (.ofJson json) = .ok value

theorem Reads.mono {limit' : Nat} {decoder : Decoder α} {json : Json} {value : α}
    (h : decoder.Reads limit json value) (hlimit : limit' ≤ limit) :
      decoder.Reads limit' json value :=
  fun pass levels hd hl => h pass levels hd (Nat.le_trans hl hlimit)

theorem Reads.map {decoder : Decoder α} {json : Json} {value : α}
    (h : decoder.Reads limit json value) (f : α → β) :
      Reads limit (fun pass levels draft => f <$> decoder pass levels draft) json (f value) := by
  intro pass levels hd hl
  dsimp only
  rw [h pass levels hd hl]
  rfl

theorem reads_bool (value : Bool) : bool.Reads limit (.bool value) value := fun _ _ _ _ => rfl

theorem reads_text (value : String) : text.Reads limit (.text value) value := fun _ _ _ _ => rfl

theorem reads_integer {low high value : Int} (hlow : low ≤ value) (hhigh : value ≤ high) :
    (integer low high).Reads limit (.int value) value :=
  fun _ _ _ _ => if_pos ⟨hlow, hhigh⟩

theorem reads_natural {bits value : Nat} (h : value < 2 ^ bits) :
    (natural bits).Reads limit (.ofNat value) value := by
  have hbound : (value : Int) ≤ Nat.pow 2 bits - 1 := by
    have h : (value : Int) < (2 ^ bits : Nat) := Int.ofNat_lt.mpr h
    exact Int.le_sub_one_of_lt h
  exact (reads_integer (Int.natCast_nonneg value) hbound).map Int.toNat

theorem reads_word (value : Int64) : word.Reads limit (.int value.toInt) value := by
  have hlow : Word.least ≤ value.toInt := Int64.le_toInt value
  have hhigh : value.toInt ≤ Word.greatest := Int64.toInt_le value
  have h : word.Reads limit (.int value.toInt) (Int64.ofInt value.toInt) :=
    (reads_integer hlow hhigh).map Int64.ofInt
  rwa [Int64.ofInt_toInt] at h

theorem reads_float {value : Float} (h : value.isFinite = true) :
    float.Reads limit (.ofFloat value) value := by
  rw [Json.ofFloat, if_pos h]
  exact fun _ _ _ _ => rfl

theorem reads_name {table : String → Option α} {name : String} {value : α}
    (h : table name = some value) : (Decoder.name table).Reads limit (.text name) value := by
  intro pass levels _ _
  show (table name).elim _ _ = _
  rw [h]
  rfl

/-- What is there is not written `null`. -/
theorem reads_nullable {decoder : Decoder α} {write : α → Json} {value : Option α}
    (h : ∀ a, value = some a → write a ≠ .null ∧ decoder.Reads limit (write a) a) :
    (nullable decoder).Reads limit (.ofOption write value) value := by
  intro pass levels hd hl
  cases value with
  | none => rfl
  | some a =>
    obtain ⟨hnull, hread⟩ := h a rfl
    have hread := hread pass levels hd hl
    rw [Json.ofOption] at hd ⊢
    cases hw : write a with
    | null => exact absurd hw hnull
    | _ =>
      rw [hw] at hread
      exact congrArg (some <$> ·) hread

theorem reads_list {decoder : Decoder α} {write : α → Json} {values : List α}
    (h : ∀ a ∈ values, decoder.Reads limit (write a) a) :
    (list decoder).Reads limit (.list (values.map write)) values := by
  intro pass levels hd hl
  cases levels with
  | zero => exact absurd hd (by simp [Json.depth])
  | succ levels =>
    have hdepth := Json.depthItems_le_iff.mp (Nat.le_of_succ_le_succ hd)
    have hitems : (Draft.ofItems (values.map write)).mapM (decoder pass levels) = .ok values := by
      clear hd
      rw [Draft.ofItems_eq_map]
      induction values with
      | nil => rfl
      | cons a rest ih =>
        have ha := h a List.mem_cons_self pass levels (hdepth _ (List.mem_cons_self ..))
          (Nat.le_of_succ_le hl)
        have hrest := ih (fun b hb => h b (List.mem_cons_of_mem a hb))
          (fun item hitem => hdepth item (List.mem_cons_of_mem _ hitem))
        rw [List.map_cons, List.map_cons, List.mapM_cons, ha, hrest]
        rfl
    exact bind_eq_ok rfl (bind_eq_ok hitems (bind_eq_ok rfl rfl))

theorem reads_pair {first : Decoder α} {second : Decoder β} {a : α} {b : β} {ja jb : Json}
    (ha : first.Reads limit ja a) (hb : second.Reads limit jb b) :
    (pair first second).Reads limit (.list [ja, jb]) (a, b) := by
  intro pass levels hd hl
  cases levels with
  | zero => exact absurd hd (by simp [Json.depth])
  | succ levels =>
    have hdepth := Json.depthItems_le_iff.mp (Nat.le_of_succ_le_succ hd)
    have ha := ha pass levels (hdepth ja (by simp)) (Nat.le_of_succ_le hl)
    have hb := hb pass levels (hdepth jb (by simp)) (Nat.le_of_succ_le hl)
    exact bind_eq_ok rfl (bind_eq_ok ha (bind_eq_ok hb rfl))

end Decoder

namespace Assoc

variable {α : Type}

theorem place_of_not_mem {name : String} (value : α) {entries : List (String × α)}
    (h : name ∉ entries.map Prod.fst) : place name value entries = entries ++ [(name, value)] := by
  induction entries with
  | nil => rfl
  | cons entry rest ih =>
    rw [List.map_cons, List.mem_cons, not_or] at h
    have hne : (entry.1 == name) = false := by simpa using Ne.symm h.1
    rw [place, hne, ih h.2]
    rfl

theorem entries_foldl_put (named : Assoc α) {entries : List (String × α)}
    (h : ((named.entries ++ entries).map Prod.fst).Nodup) :
    (entries.foldl (fun named entry => named.put entry.1 entry.2) named).entries =
      named.entries ++ entries := by
  induction entries generalizing named with
  | nil => exact (List.append_nil _).symm
  | cons entry rest ih =>
    have hnew : entry.1 ∉ named.entries.map Prod.fst := by
      rw [List.map_append, List.map_cons, List.nodup_append] at h
      exact fun hmem => h.2.2 _ hmem _ List.mem_cons_self rfl
    have hput : (named.put entry.1 entry.2).entries = named.entries ++ [entry] :=
      place_of_not_mem entry.2 hnew
    rw [List.foldl_cons, ih _ (by rw [hput, List.append_assoc]; exact h), hput, List.append_assoc]
    rfl

/-- Entries put in one after the other are the entries. -/
theorem ofList_entries (named : Assoc α) : ofList named.entries = named := by
  have hentries : (ofList named.entries).entries = named.entries :=
    entries_foldl_put empty named.distinct
  cases hlist : ofList named.entries with
  | mk entries distinct =>
    rw [hlist] at hentries
    cases named
    cases hentries
    rfl

end Assoc

namespace Decoder

variable {α β σ : Type} {limit : Nat}

theorem reads_entries {decoder : Decoder α} {write : α → Json} {named : Assoc α}
    (h : ∀ entry ∈ named.entries, decoder.Reads limit (write entry.2) entry.2) :
    (entries decoder).Reads limit
    (.object (named.entries.map fun entry => (entry.1, write entry.2))) named := by
  intro pass levels hd hl
  cases levels with
  | zero => exact absurd hd (by simp [Json.depth])
  | succ levels =>
    have hdepth := Json.depthFields_le_iff.mp (Nat.le_of_succ_le_succ hd)
    have hfold : ∀ (l : List (String × α)) (read : Assoc α), l ⊆ named.entries →
        (Draft.ofFields (l.map fun entry => (entry.1, write entry.2))).foldlM
          (fun read field => return read.put field.1 (← decoder pass levels field.2)) read =
          Except.ok (l.foldl (fun read entry => read.put entry.1 entry.2) read) := by
      intro l
      induction l with
      | nil => exact fun _ _ => rfl
      | cons entry rest ih =>
        intro read hsub
        have hmem := hsub List.mem_cons_self
        have hentry :=
          h entry hmem pass levels (hdepth _ (List.mem_map_of_mem hmem)) (Nat.le_of_succ_le hl)
        rw [List.map_cons, Draft.ofFields, List.foldlM_cons, hentry]
        exact ih _ fun e he => hsub (List.mem_cons_of_mem entry he)
    have hfields := hfold named.entries .empty fun _ h => h
    exact bind_eq_ok rfl (bind_eq_ok hfields (congrArg Except.ok named.ofList_entries))

/-! ## Records -/

/-- Fields written in the order of the declaration take a record from one state to another; what is
    not needed may be left out. -/
inductive Fills (limit : Nat) : List (Field σ) → List (String × Json) → σ → σ → Prop
  | done {state : σ} : Fills limit [] [] state state
  | written {name : String} {presence : Presence} {α : Type} {decoder : Decoder α}
      {put : α → σ → σ} {json : Json}
      {value : α} {declared : List (Field σ)} {fields : List (String × Json)} {state result : σ}
      (hread : decoder.Reads limit json value)
      (hrest : Fills limit declared fields (put value state) result) :
      Fills limit (field name presence decoder put :: declared)
      ((name, json) :: fields) state result
  | absent {f : Field σ} {declared : List (Field σ)} {fields : List (String × Json)}
      {state result : σ}
      (hpresence : f.presence ≠ .needed) (hrest : Fills limit declared fields state result) :
      Fills limit (f :: declared) fields state result

/-- The names of declared fields. -/
def fieldNames (declared : List (Field σ)) : List String := declared.flatMap Field.names

/-- A field is found under its name if the fields before it have others. -/
theorem find?_zipIdx {before : List (Field σ)} {f : Field σ}
    (after : List (Field σ)) {name : String}
    (hname : name ∈ f.names) (hnew : name ∉ fieldNames before) :
    (before ++ f :: after).zipIdx.find? (fun x => x.1.names.contains name) =
      some (f, before.length) := by
  have hbefore : before.zipIdx.find? (fun x => x.1.names.contains name) = none := by
    rw [List.find?_eq_none]
    intro x hx hcontains
    refine hnew (List.mem_flatMap.mpr ⟨x.1, ?_, List.contains_iff_mem.mp hcontains⟩)
    exact (List.mem_zipIdx' hx).2 ▸ List.getElem_mem _
  rw [List.zipIdx_append, List.find?_append, hbefore, List.zipIdx_cons, List.find?_cons_of_pos]
  · rw [Nat.zero_add]
    rfl
  · exact List.contains_iff_mem.mpr hname

/-- One step: a field is found, it has not been seen, and it is put in. -/
theorem byName_cons {declared : List (Field σ)} {pass : Pass} {levels i : Nat}
    {name : String} {draft : Draft}
    {rest : List (String × Draft)} {seen : List Nat} {state : σ} {f : Field σ} {update : σ → σ}
    (hfind : declared.zipIdx.find? (fun x => x.1.names.contains name) = some (f, i))
    (hnew : seen.contains i = false) (hdecode : f.decode pass levels draft = .ok update) :
    byName declared pass levels ((name, draft) :: rest) seen state =
      byName declared pass levels rest (i :: seen) (update state) := by
  rw [byName, hfind]
  dsimp only
  rw [hnew, hdecode]
  rfl

/-- A field among others of different names is not named before. -/
theorem not_mem_fieldNames {before declared : List (Field σ)} {f : Field σ} {name : String}
    (hnames : (fieldNames (before ++ f :: declared)).Nodup) (hname : name ∈ f.names) :
      name ∉ fieldNames before := by
  rw [fieldNames, List.flatMap_append, List.flatMap_cons, List.nodup_append] at hnames
  exact fun hmem => hnames.2.2 name hmem name (List.mem_append_left _ hname) rfl

/-- Fields are found and put in one after the other, and every needed one is seen. -/
theorem byName_of_fills {todo : List (Field σ)} {fields : List (String × Json)}
    {state result : σ} {levels : Nat}
    (hfills : Fills limit todo fields state result) (pass : Pass) (hlevels : levels ≤ limit)
    (hdepth : ∀ field ∈ fields, field.2.depth ≤ levels) (before : List (Field σ))
    (hnames : (fieldNames (before ++ todo)).Nodup) (seen : List Nat)
    (hseen : ∀ i ∈ seen, i < before.length) :
    ∃ seen', byName (before ++ todo) pass levels (Draft.ofFields fields) seen state =
      .ok (seen', result) ∧
      (∀ i ∈ seen, i ∈ seen') ∧ ∀ x ∈ todo.zipIdx before.length,
        x.1.presence = .needed → x.2 ∈ seen' := by
  induction hfills generalizing before seen with
  | done => exact ⟨seen, rfl, fun _ h => h, fun _ h => absurd h List.not_mem_nil⟩
  | @written name presence _ decoder put json value declared fields state result hread _ ih =>
    have hone : before ++ field name presence decoder put :: declared =
        (before ++ [field name presence decoder put]) ++ declared := List.append_cons ..
    have hname : name ∈ (field name presence decoder put).names := List.mem_singleton.mpr rfl
    have hunused := not_mem_fieldNames hnames hname
    have hnew : seen.contains before.length = false := by
      refine Bool.eq_false_iff.mpr fun hmem => ?_
      exact Nat.lt_irrefl _ (hseen _ (List.contains_iff_mem.mp hmem))
    have hvalue := hread pass levels (hdepth _ List.mem_cons_self) hlevels
    obtain ⟨seen', hrun, hsub, hneeded⟩ := ih (fun x hx => hdepth x (List.mem_cons_of_mem _ hx))
      (before ++ [field name presence decoder put]) (hone ▸ hnames) (before.length :: seen) (by
        intro i hi
        rw [List.length_append, List.length_singleton]
        rcases List.mem_cons.mp hi with rfl | hi
        · omega
        · have := hseen i hi
          omega)
    refine ⟨seen', ?_, fun i hi => hsub i (List.mem_cons_of_mem _ hi), ?_⟩
    · have hdecode : (field name presence decoder put).decode pass levels (.ofJson json) =
        .ok (put value) := by
        show put <$> decoder pass levels (.ofJson json) = _
        rw [hvalue]
        rfl
      rw [Draft.ofFields, byName_cons (find?_zipIdx declared hname hunused) hnew hdecode, hone]
      exact hrun
    · intro x hx hx'
      rw [List.zipIdx_cons] at hx
      rcases List.mem_cons.mp hx with rfl | hx
      · exact hsub _ List.mem_cons_self
      · refine hneeded x ?_ hx'
        rwa [List.length_append]
  | @absent f declared fields state result hpresence _ ih =>
    have hone : before ++ f :: declared = (before ++ [f]) ++ declared := List.append_cons ..
    obtain ⟨seen', hrun, hsub, hneeded⟩ := ih hdepth (before ++ [f]) (hone ▸ hnames) seen (by
      intro i hi
      have := hseen i hi
      rw [List.length_append, List.length_singleton]
      omega)
    refine ⟨seen', hone ▸ hrun, hsub, ?_⟩
    intro x hx hx'
    rw [List.zipIdx_cons] at hx
    rcases List.mem_cons.mp hx with rfl | hx
    · exact absurd hx' hpresence
    · refine hneeded x ?_ hx'
      rwa [List.length_append]

/-- A record is read from fields that fill it. -/
theorem reads_record {start result : σ} {declared : List (Field σ)} {fields : List (String × Json)}
    (hnames : (fieldNames declared).Nodup) (hfills : Fills limit declared fields start result) :
    (record start declared).Reads limit (.object fields) result := by
  intro pass levels hd hl
  cases levels with
  | zero => exact absurd hd (by simp [Json.depth])
  | succ levels =>
    have hdepth := Json.depthFields_le_iff.mp (Nat.le_of_succ_le_succ hd)
    obtain ⟨seen, hrun, _, hneeded⟩ :=
      byName_of_fills hfills pass (Nat.le_of_succ_le hl) hdepth [] hnames []
      fun _ h => absurd h List.not_mem_nil
    have hall : (declared.zipIdx.any fun x => x.1.presence = .needed && !seen.contains x.2) =
      false := by
      refine List.any_eq_false.mpr fun x hx => ?_
      by_cases hpresence : x.1.presence = .needed
      · simp [hneeded x hx hpresence]
      · simp [hpresence]
    rw [List.nil_append] at hrun
    rw [Draft.ofJson, record]
    simp only [inside, hrun, hall, Draft.raise, bind, Except.bind]
    rfl

end Decoder

end CompositeGraph
