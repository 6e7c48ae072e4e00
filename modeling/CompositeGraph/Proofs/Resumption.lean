/-
  RESUMPTION: which runs can be gone on with from their snapshot.

  A snapshot is read more strictly than it is written.  A float without digits is written as
  nothing, and where a float should stand nothing is refused; and what nests beyond the limit is
  written all the same.  Of what a run leaves behind, nothing else is in the way.

    1. DEMANDS.     `Decoder.Demands`: what decoding a document takes, besides levels for its
                    nesting.  It is put together the way decoders are.
    2. NODES.       Nodes take nothing but levels.
    3. VALUES.      Values take floats that have digits.
    4. COMPOSITES.  So do the composites of a store, for the values of their members.
    5. CHECKS.      Whether a store can be written, computed where nothing nests
                    beyond a given level.
    6. RUNS.        What a run on an empty store leaves is read back if and only if its floats have
                    digits and it does not nest too deep.
-/
import CompositeGraph.Program
import CompositeGraph.Proofs.Safety
import CompositeGraph.Proofs.Snapshots

namespace CompositeGraph

/-! ## Demands -/

namespace Draft

open Json (depth depthItems depthFields)

mutual

/-- A document without fault does not nest too deeply. -/
theorem depth_le_of_settle {levels : Nat} :
    ∀ {json : Json}, (ofJson json).settle levels = .ok () → json.depth ≤ levels
  | .null, _ | .bool _, _ | .int _, _ | .float _, _ | .text _, _ => Nat.zero_le _
  | .list items, h => by
    cases levels with
    | zero => cases h
    | succ levels =>
      cases hitems : settleItems levels (ofItems items) with
      | error fault =>
        rw [ofJson, settle, hitems] at h
        cases h
      | ok u => exact Nat.succ_le_succ (depthItems_le_of_settle hitems)
  | .object fields, h => by
    cases levels with
    | zero => cases h
    | succ levels =>
      cases hfields : settleFields levels (ofFields fields) with
      | error fault =>
        rw [ofJson, settle, hfields] at h
        cases h
      | ok u => exact Nat.succ_le_succ (depthFields_le_of_settle hfields)

theorem depthItems_le_of_settle {levels : Nat} :
    ∀ {items : List Json}, settleItems levels (ofItems items) = .ok () → depthItems items ≤ levels
  | [], _ => Nat.zero_le _
  | item :: rest, h => by
    cases hitem : (ofJson item).settle levels with
    | error fault =>
      rw [ofItems, settleItems, hitem] at h
      cases h
    | ok u =>
      rw [ofItems, settleItems, hitem] at h
      exact Nat.max_le.mpr ⟨depth_le_of_settle hitem, depthItems_le_of_settle h⟩

theorem depthFields_le_of_settle {levels : Nat} :
    ∀ {fields : List (String × Json)}, settleFields levels (ofFields fields) = .ok () →
      depthFields fields ≤ levels
  | [], _ => Nat.zero_le _
  | (name, value) :: rest, h => by
    cases hvalue : (ofJson value).settle levels with
    | error fault =>
      rw [ofFields, settleFields, hvalue] at h
      cases h
    | ok u =>
      rw [ofFields, settleFields, hvalue] at h
      exact Nat.max_le.mpr ⟨depth_le_of_settle hvalue, depthFields_le_of_settle h⟩

end

end Draft

namespace Decoder

variable {α β σ : Type} {P Q : Prop}

theorem exists_of_map_eq_ok {ε : Type} {x : Except ε α} {f : α → β} {b : β} (h : f <$> x = .ok b) :
    ∃ a, x = .ok a ∧ f a = b := by
  cases x with
  | error e => cases h
  | ok a => exact ⟨a, rfl, Except.ok.inj h⟩

/-- Of a list that was gone through to its end, each item was. -/
theorem exists_of_mapM_eq_ok {ε : Type} {f : α → Except ε β} {items : List α} {read : List β}
    (h : items.mapM f = .ok read) : ∀ item ∈ items, ∃ b, f item = .ok b := by
  induction items generalizing read with
  | nil => exact fun _ hmem => absurd hmem List.not_mem_nil
  | cons item rest ih =>
    rw [List.mapM_cons] at h
    obtain ⟨b, hb, h⟩ := exists_of_bind_eq_ok h
    obtain ⟨others, hothers, _⟩ := exists_of_bind_eq_ok h
    exact List.forall_mem_cons.mpr ⟨⟨b, hb⟩, ih hothers⟩

variable {levels : Nat}

/-- What came to its end inside a list or object had a level left for it. -/
theorem exists_of_inside {f : Nat → Except Fault β} {b : β} (h : (inside levels >>= f) = .ok b) :
    ∃ left, levels = left + 1 ∧ f left = .ok b := by
  cases levels with
  | zero => cases h
  | succ left => exact ⟨left, rfl, h⟩

/-- A document is decoded as its text is read only with levels enough for its nesting, and only if
    `P`. -/
def Demands (decoder : Decoder α) (json : Json) (P : Prop) : Prop :=
  ∀ levels value, decoder .direct levels (.ofJson json) = .ok value → json.depth ≤ levels ∧ P

variable {decoder : Decoder α}

variable {json : Json}

theorem Demands.weaken (h : decoder.Demands json P) (hQ : P → Q) :
    decoder.Demands json Q := fun levels value hv => (h levels value hv).imp_right hQ

theorem Demands.map (h : decoder.Demands json P) (f : α → β) :
    Demands (fun pass levels draft => f <$> decoder pass levels draft) json P := by
  intro levels value hv
  obtain ⟨a, ha, _⟩ := exists_of_map_eq_ok hv
  exact h levels a ha

/-- What is neither list nor object takes no levels. -/
theorem demands_leaf (h : json.depth = 0) : decoder.Demands json True :=
  fun levels _ _ => ⟨h ▸ Nat.zero_le levels, trivial⟩

/-- What is there is not written `null`, so it is decoded. -/
theorem demands_nullable {γ : Type} {write : γ → Json} {value : Option γ} {P : γ → Prop}
    (h : ∀ c ∈ value, write c ≠ .null ∧ decoder.Demands (write c) (P c)) :
    (nullable decoder).Demands (.ofOption write value) (∀ c ∈ value, P c) := by
  intro levels a ha
  cases value with
  | none => exact ⟨Nat.zero_le _, fun _ hc => absurd hc (Option.not_mem_none _)⟩
  | some c =>
    obtain ⟨hnull, hdemands⟩ := h c rfl
    have hsome : ∃ b, decoder .direct levels (.ofJson (write c)) = .ok b := by
      -- Which decoder is run depends on whether the document is `null`, so its form has to be
      -- known.
      rw [Json.ofOption] at ha
      cases hw : write c with
      | null => exact absurd hw hnull
      | _ =>
        rw [hw] at ha
        obtain ⟨b, hb, _⟩ := exists_of_map_eq_ok ha
        exact ⟨b, hb⟩
    obtain ⟨b, hb⟩ := hsome
    obtain ⟨hdepth, hP⟩ := hdemands levels b hb
    refine ⟨hdepth, ?_⟩
    rintro _ ⟨⟩
    exact hP

theorem demands_list {γ : Type} {write : γ → Json} {values : List γ} {P : γ → Prop}
    (h : ∀ c ∈ values, decoder.Demands (write c) (P c)) :
    (list decoder).Demands (.list (values.map write)) (∀ c ∈ values, P c) := by
  intro levels read hread
  obtain ⟨levels, rfl, hinside⟩ := exists_of_inside hread
  obtain ⟨items, hitems, _⟩ := exists_of_bind_eq_ok hinside
  rw [Draft.ofItems_eq_map] at hitems
  have hall : ∀ c ∈ values, (write c).depth ≤ levels ∧ P c := by
    intro c hc
    obtain ⟨a, ha⟩ := exists_of_mapM_eq_ok hitems _ (List.mem_map_of_mem (List.mem_map_of_mem hc))
    exact h c hc levels a ha
  refine ⟨Nat.succ_le_succ (Json.depthItems_le_iff.mpr ?_), fun c hc => (hall c hc).2⟩
  exact List.forall_mem_map.mpr fun c hc => (hall c hc).1

theorem demands_pair {first : Decoder α} {second : Decoder β} {ja jb : Json}
    (ha : first.Demands ja P)
    (hb : second.Demands jb Q) : (pair first second).Demands (.list [ja, jb]) (P ∧ Q) := by
  intro levels read hread
  obtain ⟨levels, rfl, hinside⟩ := exists_of_inside hread
  obtain ⟨a, hreada, hrest⟩ := exists_of_bind_eq_ok hinside
  obtain ⟨b, hreadb, _⟩ := exists_of_bind_eq_ok hrest
  obtain ⟨hdeptha, hP⟩ := ha levels a hreada
  obtain ⟨hdepthb, hQ⟩ := hb levels b hreadb
  refine ⟨Nat.succ_le_succ (Json.depthItems_le_iff.mpr ?_), hP, hQ⟩
  simpa using ⟨hdeptha, hdepthb⟩

/-- Of entries that were put one after another, each was decoded. -/
theorem decoded_of_foldlM {γ : Type} {write : γ → Json}
    {written : List (String × γ)} {start read : Assoc α}
    (h : (Draft.ofFields (written.map fun entry => (entry.1, write entry.2))).foldlM
      (fun read field => return read.put field.1 (← decoder .direct levels field.2)) start =
        .ok read) :
    ∀ entry ∈ written, ∃ a, decoder .direct levels (.ofJson (write entry.2)) = .ok a := by
  induction written generalizing start with
  | nil => exact fun _ he => absurd he List.not_mem_nil
  | cons entry rest ih =>
    rw [List.map_cons, Draft.ofFields, List.foldlM_cons] at h
    obtain ⟨next, hnext, hrest⟩ := exists_of_bind_eq_ok h
    obtain ⟨a, ha, _⟩ := exists_of_bind_eq_ok hnext
    exact List.forall_mem_cons.mpr ⟨⟨a, ha⟩, ih hrest⟩

theorem demands_entries {γ : Type} {write : γ → Json} {written : List (String × γ)}
    {P : γ → Prop} (h : ∀ entry ∈ written, decoder.Demands (write entry.2) (P entry.2)) :
    (entries decoder).Demands (.object (written.map fun entry => (entry.1, write entry.2)))
      (∀ entry ∈ written, P entry.2) := by
  intro levels read hread
  obtain ⟨levels, rfl, hinside⟩ := exists_of_inside hread
  obtain ⟨values, hvalues, _⟩ := exists_of_bind_eq_ok hinside
  have hall : ∀ entry ∈ written, (write entry.2).depth ≤ levels ∧ P entry.2 := by
    intro entry hentry
    obtain ⟨a, ha⟩ := decoded_of_foldlM hvalues entry hentry
    exact h entry hentry levels a ha
  refine ⟨Nat.succ_le_succ (Json.depthFields_le_iff.mpr ?_), fun entry he => (hall entry he).2⟩
  exact List.forall_mem_map.mpr fun entry he => (hall entry he).1

/-- What a record takes whose fields are written in the order of the declaration: of one field more
    than levels, if at all. -/
inductive Asks : List (Field σ) → List (String × Json) → Prop → Prop
  | done : Asks [] [] True
  | plain {name : String} {presence : Presence} {α : Type} {decoder : Decoder α}
      {put : α → σ → σ} {json : Json}
      {declared : List (Field σ)} {fields : List (String × Json)} {P : Prop}
      (hfield : decoder.Demands json True) (hrest : Asks declared fields P) :
      Asks (field name presence decoder put :: declared) ((name, json) :: fields) P
  | asking {name : String} {presence : Presence} {α : Type} {decoder : Decoder α}
      {put : α → σ → σ} {json : Json}
      {declared : List (Field σ)} {fields : List (String × Json)} {P : Prop}
      (hfield : decoder.Demands json P) (hrest : Asks declared fields True) :
      Asks (field name presence decoder put :: declared) ((name, json) :: fields) P
  | absent {f : Field σ} {declared : List (Field σ)} {fields : List (String × Json)} {P : Prop}
      (hrest : Asks declared fields P) : Asks (f :: declared) fields P

/-- One step back: the field was decoded, and then the others. -/
theorem decoded_of_byName {before declared : List (Field σ)} {name : String} {presence : Presence}
    {put : α → σ → σ}
    (hnames : (fieldNames (before ++ field name presence decoder put :: declared)).Nodup)
    {fields : List (String × Json)} {seen : List Nat} {state : σ} {read : List Nat × σ}
    (hread : byName (before ++ field name presence decoder put :: declared) .direct levels
      (Draft.ofFields ((name, json) :: fields)) seen state = .ok read) :
    (∃ a, decoder .direct levels (.ofJson json) = .ok a) ∧
      ∃ seen' state',
        byName ((before ++ [field name presence decoder put]) ++ declared) .direct levels
        (Draft.ofFields fields) seen' state' = .ok read := by
  have hname : name ∈ (field name presence decoder put).names := List.mem_singleton.mpr rfl
  have hunused := not_mem_fieldNames hnames hname
  rw [Draft.ofFields, byName, find?_zipIdx declared hname hunused] at hread
  dsimp only at hread
  split at hread
  · cases hread
  · obtain ⟨update, hupdate, hread⟩ := exists_of_bind_eq_ok hread
    obtain ⟨a, ha, _⟩ := exists_of_map_eq_ok hupdate
    rw [List.append_cons] at hread
    exact ⟨⟨a, ha⟩, _, _, hread⟩

/-- Fields that were all decoded had what they take. -/
theorem asked_of_byName {todo : List (Field σ)} {fields : List (String × Json)}
    (hasks : Asks todo fields P)
    (before : List (Field σ)) (hnames : (fieldNames (before ++ todo)).Nodup) {seen : List Nat}
    {state : σ} {read : List Nat × σ}
    (hread : byName (before ++ todo) .direct levels (Draft.ofFields fields) seen state = .ok read) :
    (∀ field ∈ fields, field.2.depth ≤ levels) ∧ P := by
  -- The declaration stays whole while its fields are gone through: `before` takes in what is done
  -- with.
  induction hasks generalizing before seen state with
  | done => exact ⟨fun _ h => absurd h List.not_mem_nil, trivial⟩
  | plain hfield _ ih =>
    obtain ⟨⟨a, ha⟩, _, _, hothers⟩ := decoded_of_byName hnames hread
    rw [List.append_cons] at hnames
    obtain ⟨hrest, hP⟩ := ih _ hnames hothers
    exact ⟨List.forall_mem_cons.mpr ⟨(hfield levels a ha).1, hrest⟩, hP⟩
  | asking hfield _ ih =>
    obtain ⟨⟨a, ha⟩, _, _, hothers⟩ := decoded_of_byName hnames hread
    rw [List.append_cons] at hnames
    obtain ⟨hrest, _⟩ := ih _ hnames hothers
    obtain ⟨hdepth, hP⟩ := hfield levels a ha
    exact ⟨List.forall_mem_cons.mpr ⟨hdepth, hrest⟩, hP⟩
  | absent _ ih =>
    rw [List.append_cons] at hread hnames
    exact ih _ hnames hread

theorem demands_record {start : σ} {declared : List (Field σ)} {fields : List (String × Json)}
    (hnames : (fieldNames declared).Nodup) (hasks : Asks declared fields P) :
    (record start declared).Demands (.object fields) P := by
  intro levels read hread
  obtain ⟨levels, rfl, hinside⟩ := exists_of_inside hread
  obtain ⟨state, hstate, _⟩ := exists_of_bind_eq_ok hinside
  obtain ⟨hdepth, hP⟩ := asked_of_byName hasks [] hnames hstate
  exact ⟨Nat.succ_le_succ (Json.depthFields_le_iff.mpr hdepth), hP⟩

end Decoder

open Decoder (Demands Asks demands_leaf demands_nullable demands_list demands_pair
  demands_entries demands_record exists_of_inside exists_of_map_eq_ok)

/-! ## Nodes -/

theorem Handle.demands (handle : Handle) : Handle.decoder.Demands handle.toJson True :=
  demands_record (by decide) <| .plain (demands_leaf rfl) <| .plain (demands_leaf rfl) .done

theorem Handle.demands_nullable (handle : Option Handle) :
    (Decoder.nullable Handle.decoder).Demands (.ofOption Handle.toJson handle) True :=
  (Decoder.demands_nullable fun x _ => ⟨Json.noConfusion, x.demands⟩).weaken fun _ => trivial

theorem Handle.demands_list (handles : List Handle) :
    (Decoder.list Handle.decoder).Demands (.list (handles.map Handle.toJson)) True :=
  (Decoder.demands_list fun x _ => x.demands).weaken fun _ => trivial

theorem Range.demands (range : Range) : Range.decoder.Demands range.toJson True :=
  demands_record (by decide) <| .plain (demands_leaf rfl) <| .plain (demands_leaf rfl) .done

namespace Node

/-- The range and all other fields of a node were looked at. -/
theorem depth_le_of_rangeAndRest {fields : List (String × Json)} {range read : Option Range}
    (hrange : ∀ field ∈ fields, field.1 = "range" → Range.decoder.Demands field.2 True)
    (h : rangeAndRest .direct levels (Draft.ofFields fields) range = .ok read) :
    ∀ field ∈ fields, field.2.depth ≤ levels := by
  induction fields generalizing range with
  | nil => exact fun _ hmem => absurd hmem List.not_mem_nil
  | cons field rest ih =>
    have hrest := fun other hother => hrange other (List.mem_cons_of_mem field hother)
    rw [Draft.ofFields, rangeAndRest] at h
    split at h
    · next hname =>
      split at h
      · cases h
      · obtain ⟨found, hfound, h⟩ := exists_of_bind_eq_ok h
        have hdepth := hrange field List.mem_cons_self (of_decide_eq_true hname) levels found hfound
        exact List.forall_mem_cons.mpr ⟨hdepth.1, ih hrest h⟩
    · obtain ⟨_, hsettled, h⟩ := exists_of_bind_eq_ok h
      exact List.forall_mem_cons.mpr ⟨Draft.depth_le_of_settle hsettled, ih hrest h⟩

theorem demands (node : Node) : Node.decoder.Demands node.toJson True := by
  intro levels value hvalue
  obtain ⟨range, form⟩ := node
  obtain ⟨levels, rfl, hinside⟩ := exists_of_inside hvalue
  obtain ⟨read, hread, _⟩ := exists_of_bind_eq_ok hinside
  have hnames := List.nodup_cons.mp (nodup_names_fields form)
  refine ⟨Nat.succ_le_succ (Json.depthFields_le_iff.mpr (depth_le_of_rangeAndRest ?_ hread)),
    trivial⟩
  intro field hmem hname
  rcases List.mem_cons.mp hmem with rfl | hmem
  · exact range.demands
  · exact absurd (hname ▸ List.mem_map_of_mem hmem) hnames.1

end Node

/-! ## Values -/

namespace TypePart

variable {declared : List (Decoder.Field TypePart)} {fields : List (String × Json)}

theorem asks_option {α : Type} {name : String} {decoder : Decoder α}
    {put : Option α → TypePart → TypePart} {write : α → Json} {value : Option α}
    (h : ∀ a ∈ value, write a ≠ .null ∧ decoder.Demands (write a) True)
    (hrest : Asks declared fields True) :
    Asks (optional name decoder put :: declared) (optionField name write value ++ fields) True := by
  cases value with
  | none => exact .absent hrest
  | some a =>
    have hfield : (Decoder.nullable decoder).Demands (.ofOption write (some a)) _ :=
      demands_nullable h
    exact .plain (hfield.weaken fun _ => trivial) hrest

theorem asks_flag {name : String} {put : Bool → TypePart → TypePart} {flag : Bool}
    (hrest : Asks declared fields True) :
    Asks (TypePart.flag name put :: declared) (flagField name flag ++ fields) True := by
  cases flag with
  | false => exact .absent hrest
  | true => exact .plain (demands_leaf rfl) hrest

theorem demands (part : TypePart) : TypePart.decoder.Demands part.toJson True := by
  refine demands_record (by decide +kernel) ?_
  simp only [List.append_assoc]
  refine asks_option (fun _ _ => ⟨Json.noConfusion, demands_leaf rfl⟩) ?_
  refine asks_option (fun _ _ => ⟨Json.noConfusion, demands_leaf rfl⟩) ?_
  refine asks_option (fun x _ => ⟨Json.noConfusion, x.demands⟩) ?_
  iterate 13 refine asks_flag ?_
  iterate 6 refine asks_option (fun _ _ => ⟨Json.noConfusion, demands_leaf rfl⟩) ?_
  rw [← List.append_nil (optionField "value" Node.toJson part.value)]
  exact asks_option (fun n _ => ⟨n.toJson_ne_null, n.demands⟩) .done

end TypePart

theorem TypeTree.demands (type : TypeTree) : TypeTree.decoder.Demands type.toJson True :=
  ((demands_list fun part _ => TypePart.demands part).map TypeTree.mk).weaken fun _ => trivial

namespace Value

mutual

/-- The floats in a value, down to the entries of dictionaries. -/
def floats : Value → List Float
  | .float value => [value]
  | .dictionary entries => entriesFloats entries
  | _ => []

def entriesFloats : List (Value × Option Value) → List Float
  | [] => []
  | (key, value) :: rest => floats key ++ optionFloats value ++ entriesFloats rest

def optionFloats : Option Value → List Float
  | none => []
  | some value => floats value

end

/-- What holds of the floats of each entry holds of all of them. -/
theorem forall_mem_entriesFloats {p : Float → Prop} {entries : List (Value × Option Value)}
    (h : ∀ entry ∈ entries, (∀ x ∈ floats entry.1, p x) ∧ ∀ value ∈ entry.2,
      ∀ x ∈ floats value, p x) :
    ∀ x ∈ entriesFloats entries, p x := by
  induction entries with
  | nil => exact fun _ hx => absurd hx List.not_mem_nil
  | cons entry rest ih =>
    obtain ⟨hkey, hvalue⟩ := h entry List.mem_cons_self
    obtain ⟨key, value⟩ := entry
    rw [entriesFloats, List.forall_mem_append, List.forall_mem_append]
    refine ⟨⟨hkey, ?_⟩, ih fun other hother => h other (List.mem_cons_of_mem _ hother)⟩
    cases value with
    | none => exact fun _ hx => absurd hx List.not_mem_nil
    | some value => exact hvalue value rfl

/-- The contents of a value were decoded by its sort. -/
theorem demands_labelled {fuel : Nat} {primitive : Primitive} {P : Prop}
    (h : Demands (fun pass levels draft =>
      contents (decoderTo fuel) pass levels draft primitive) json P) :
    (decoderTo (fuel + 1)).Demands (labelled primitive json) P := by
  intro levels value hvalue
  obtain ⟨levels, rfl, hinside⟩ := exists_of_inside hvalue
  obtain ⟨progress, hprogress, _⟩ := exists_of_bind_eq_ok hinside
  obtain ⟨sort, hsort, hrest⟩ := exists_of_bind_eq_ok hprogress
  have hsame : sort = primitive := by
    have hread : Decoder.name Primitive.ofName .direct levels (.ofJson (.text primitive.name)) =
      .ok primitive :=
      Decoder.reads_name primitive.ofName_name .direct levels (Nat.zero_le _) (Nat.le_refl levels)
    exact Except.ok.inj (hsort.symm.trans hread)
  subst hsame
  obtain ⟨found, hfound, _⟩ := exists_of_bind_eq_ok hrest
  obtain ⟨hdepth, hP⟩ := h levels found hfound
  refine ⟨Nat.succ_le_succ (Json.depthFields_le_iff.mpr ?_), hP⟩
  simpa [Json.depth] using hdepth

/-- A float is decoded only if it has digits. -/
theorem demands_float (value : Float) :
    Decoder.float.Demands (.ofFloat value) (value.isFinite = true) := by
  intro levels read hread
  cases hfinite : value.isFinite with
  | true => exact ⟨by simp [Json.ofFloat, hfinite, Json.depth], rfl⟩
  | false =>
    rw [Json.ofFloat, hfinite] at hread
    cases hread

theorem demands_decoderTo (fuel : Nat) (value : Value) :
    (decoderTo fuel).Demands value.toJson (∀ x ∈ value.floats, x.isFinite = true) := by
  induction fuel generalizing value with
  | zero =>
    intro levels read hread
    cases hread
  | succ fuel ih =>
    have hnone : ∀ x ∈ ([] : List Float), x.isFinite = true := fun _ h => absurd h List.not_mem_nil
    cases value with
    | boolean b => exact demands_labelled (((demands_leaf rfl).map _).weaken fun _ => hnone)
    | integer n => exact demands_labelled (((demands_leaf rfl).map _).weaken fun _ => hnone)
    | string text => exact demands_labelled (((demands_leaf rfl).map _).weaken fun _ => hnone)
    | type tree => exact demands_labelled ((tree.demands.map _).weaken fun _ => hnone)
    | pointer handle => exact demands_labelled ((handle.demands.map _).weaken fun _ => hnone)
    | reference handle => exact demands_labelled ((handle.demands.map _).weaken fun _ => hnone)
    | float x =>
      exact demands_labelled (((demands_float x).map _).weaken fun h =>
        List.forall_mem_singleton.mpr h)
    | dictionary entries =>
      rw [toJson, entriesJson_eq_map]
      refine demands_labelled (Demands.weaken (Demands.map (demands_list fun entry hentry => ?_) _)
        forall_mem_entriesFloats)
      rw [optionJson_eq_ofOption]
      exact demands_pair (ih entry.1) (demands_nullable fun v _ => ⟨v.toJson_ne_null, ih v⟩)

theorem demands (value : Value) :
    Value.decoder.Demands value.toJson (∀ x ∈ value.floats, x.isFinite = true) :=
  demands_decoderTo (nestingLimit + 1) value

end Value

/-! ## Composites -/

theorem Observer.demands (observer : Observer) : Observer.decoder.Demands observer.toJson True :=
  demands_record (by decide) <| .plain (demands_leaf rfl) <| .plain observer.function.demands .done

theorem Observer.demands_list (observers : List Observer) :
    (Decoder.list Observer.decoder).Demands (.list (observers.map Observer.toJson)) True :=
  (Decoder.demands_list fun observer _ => observer.demands).weaken fun _ => trivial

theorem Decoder.demands_texts (texts : List String) :
    (Decoder.list Decoder.text).Demands (.ofTexts texts) True :=
  (Decoder.demands_list fun _ _ => demands_leaf rfl).weaken fun _ => trivial

/-- The floats in the value of a member. -/
def Overload.floats (overload : Overload) : List Float := Value.optionFloats overload.value

theorem Overload.demands (overload : Overload) :
    Overload.decoder.Demands overload.toJson (∀ x ∈ overload.floats, x.isFinite = true) := by
  have hvalue : (Decoder.nullable Value.decoder).Demands (Value.optionJson overload.value)
      (∀ x ∈ overload.floats, x.isFinite = true) := by
    rw [Value.optionJson_eq_ofOption]
    refine (demands_nullable fun v _ => ⟨v.toJson_ne_null, v.demands⟩).weaken fun h => ?_
    unfold Overload.floats
    cases hvalue : overload.value with
    | none => exact fun _ hx => absurd hx List.not_mem_nil
    | some v => exact h v hvalue
  exact demands_record (by decide) <| .plain (Decoder.demands_texts _) <|
    .plain overload.type.demands <|
    .asking hvalue <| .plain (Observer.demands_list _) .done

theorem Operator.demands (operator : Operator) : Operator.decoder.Demands operator.toJson True :=
  demands_record (by decide) <| .plain (Decoder.demands_texts _) <| .plain (demands_leaf rfl) <|
    .plain (demands_leaf rfl) .done

theorem Operator.demands_list (operators : List Operator) :
    (Decoder.list Operator.decoder).Demands (.list (operators.map Operator.toJson)) True :=
  (Decoder.demands_list fun operator _ => operator.demands).weaken fun _ => trivial

theorem Statements.demands (statements : Statements) :
    Statements.decoder.Demands statements.toJson True := by
  cases statements with
  | none => exact demands_leaf rfl
  | block nodes =>
    intro levels read hread
    obtain ⟨levels, rfl, hinside⟩ := exists_of_inside hread
    obtain ⟨found, hfound, _⟩ := exists_of_bind_eq_ok hinside
    obtain ⟨values, hvalues, _⟩ := exists_of_map_eq_ok hfound
    have hdepth :=
      (demands_list fun (node : Node) (_ : node ∈ nodes) => node.demands) levels values hvalues
    refine ⟨Nat.succ_le_succ (Json.depthFields_le_iff.mpr ?_), trivial⟩
    exact List.forall_mem_singleton.mpr hdepth.1
  | native function =>
    intro levels read hread
    obtain ⟨levels, rfl, _⟩ := exists_of_inside hread
    exact ⟨Nat.succ_le_succ (Nat.zero_le _), trivial⟩

/-- The floats in the values of the members of a composite. -/
def Composite.floats (composite : Composite) : List Float :=
  composite.members.entries.flatMap fun entry => entry.2.flatMap Overload.floats

theorem Links.demands (links : Links) : Links.decoder.Demands links.toJson True := by
  refine demands_record (by decide +kernel) ?_
  iterate 7 refine .plain (Handle.demands_nullable _) ?_
  exact .plain (Handle.demands_list _) .done

theorem Composite.demands_entriesJson {α : Type} {decoder : Decoder α}
    {write : α → Json} {named : Assoc α}
    {P : α → Prop} (h : ∀ entry ∈ named.entries, decoder.Demands (write entry.2) (P entry.2)) :
    (Decoder.entries decoder).Demands (entriesJson write named)
    (∀ entry ∈ named.entries, P entry.2) :=
  demands_entries h

theorem Composite.demands (composite : Composite) :
    Composite.decoder.Demands composite.toJson (∀ x ∈ composite.floats, x.isFinite = true) := by
  have htitle : (Decoder.nullable Decoder.text).Demands (.ofOption .text composite.title) True :=
    (demands_nullable fun _ _ => ⟨Json.noConfusion, demands_leaf rfl⟩).weaken fun _ => trivial
  have himports : (Decoder.entries Handle.decoder).Demands
    (entriesJson Handle.toJson composite.imports) True :=
    (demands_entriesJson (P := fun _ => True) fun entry _ => entry.2.demands).weaken
    fun _ => trivial
  have hoperators : (Decoder.entries (Decoder.list Operator.decoder)).Demands
      (entriesJson (fun operators => .list (operators.map Operator.toJson))
        composite.operators) True :=
    (demands_entriesJson (P := fun _ => True) fun entry _ => Operator.demands_list entry.2).weaken
      fun _ => trivial
  have hmembers : (Decoder.entries (Decoder.list Overload.decoder)).Demands
      (entriesJson (fun overloads => .list (overloads.map Overload.toJson)) composite.members)
      (∀ x ∈ composite.floats, x.isFinite = true) := by
    let finite (overloads : List Overload) :=
      ∀ overload ∈ overloads, ∀ x ∈ overload.floats, x.isFinite = true
    refine (demands_entriesJson (P := finite) fun entry _ => ?_).weaken fun h x hx => ?_
    · exact demands_list fun overload _ => overload.demands
    · obtain ⟨entry, hentry, hx⟩ := List.mem_flatMap.mp hx
      obtain ⟨overload, hoverload, hx⟩ := List.mem_flatMap.mp hx
      exact h entry hentry overload hoverload x hx
  exact demands_record (by decide) <| .plain htitle <| .plain composite.links.demands <|
    .plain (demands_leaf rfl) <|
    .plain composite.type.demands <| .plain composite.statements.demands <| .plain himports <|
      .plain hoperators <|
    .asking hmembers <| .plain (Observer.demands_list _) .done

/-- The floats in the values of all members in a store. -/
def Store.floats (store : Store) : List Float :=
  store.cells.toList.flatMap fun cell => cell.composite.toList.flatMap Composite.floats

theorem Cell.demands (cell : Cell) : Cell.decoder.Demands cell.toJson
    (∀ composite ∈ cell.composite, ∀ x ∈ composite.floats, x.isFinite = true) :=
  demands_record (by decide) <| .plain (demands_leaf rfl) <|
    .asking (demands_nullable fun composite _ => ⟨Json.noConfusion, composite.demands⟩) .done

namespace Snapshot

/-- A saved store is decoded only if its floats have digits. -/
theorem demands (store : Store) : Snapshot.decoder.Demands (ofStore store).toJson
    (∀ x ∈ store.floats, x.isFinite = true) := by
  have hcells : (Decoder.list Cell.decoder).Demands (.list (store.cells.toList.map Cell.toJson))
      (∀ x ∈ store.floats, x.isFinite = true) := by
    refine (demands_list fun cell _ => cell.demands).weaken fun h x hx => ?_
    obtain ⟨cell, hcell, hx⟩ := List.mem_flatMap.mp hx
    obtain ⟨composite, hcomposite, hx⟩ := List.mem_flatMap.mp hx
    exact h cell hcell composite (Option.mem_toList.mp hcomposite) x hx
  exact demands_record (by decide) <| .plain (demands_leaf rfl) <| .asking hcells .done

/-- A text is decoded by decoding the document that it was written of. -/
theorem run_render {α : Type} {decoder : Decoder α} (h : ∀ leaf ∈ json.leaves, leaf.Legible) :
    decoder.run json.render = decoder .direct nestingLimit (.ofJson json) := by
  unfold Decoder.run
  rw [Document.read_render h]
  dsimp only
  cases decoder .direct nestingLimit (.ofJson json) with
  | error fault => rfl
  | ok value => rfl

/-- What is restored has floats with digits and does not nest too deep. -/
theorem needs_of_restore {store restored : Store}
    (hlegible : ∀ leaf ∈ (ofStore store).toJson.leaves, leaf.Legible)
    (h : restore (save store) = .ok restored) :
    (∀ x ∈ store.floats, x.isFinite = true) ∧ (ofStore store).toJson.depth ≤ nestingLimit := by
  rw [restore, save, run_render hlegible] at h
  cases hread : Snapshot.decoder .direct nestingLimit (.ofJson (ofStore store).toJson) with
  | error fault =>
    rw [hread] at h
    cases h
  | ok snapshot => exact (demands store nestingLimit snapshot hread).symm

end Snapshot

/-! ## Checks -/

/-- Whether a node can be written, if nodes nest in it to a level at most. -/
def Node.isWritable : (levels : Nat) → Node → Bool
  | 0, _ => false
  | levels + 1, .mk range form =>
    decide (range.start < 2 ^ 64 ∧ range.stop < 2 ^ 64) &&
      (match form with
        | .literal _ (.float value) => value.isFinite
        | _ => true) &&
      form.children.all (isWritable levels)

theorem Node.writable_of_isWritable {node : Node} (h : node.isWritable levels = true) :
    node.Writable := by
  induction levels generalizing node with
  | zero => cases h
  | succ levels ih =>
    obtain ⟨range, form⟩ := node
    obtain ⟨hrange, hchildren⟩ := Bool.and_eq_true_iff.mp h
    obtain ⟨hrange, hliteral⟩ := Bool.and_eq_true_iff.mp hrange
    have hfits : range.start < 2 ^ 64 ∧ range.stop < 2 ^ 64 := of_decide_eq_true hrange
    refine .mk hfits ?_ fun child hchild => ih (List.all_eq_true.mp hchildren child hchild)
    rintro sort value rfl
    cases value with
    | float value => exact hliteral
    | text value | boolean value | integer value => exact trivial

/-- The parts of a type fit, and their nodes nest to a level at most. -/
def TypeTree.FitsTo (levels : Nat) (type : TypeTree) : Prop :=
  ∀ part ∈ type.parts, (∀ index ∈ part.parent, index < 2 ^ 64) ∧
    (∀ handle ∈ part.reference, handle.Fits) ∧
    ∀ node ∈ part.value, node.isWritable levels = true

instance (levels : Nat) (type : TypeTree) : Decidable (type.FitsTo levels) :=
  inferInstanceAs (Decidable (∀ part ∈ type.parts, _))

theorem TypeTree.FitsTo.writable {type : TypeTree} (h : type.FitsTo levels) : type.Writable :=
  fun part hpart => ⟨(h part hpart).1, (h part hpart).2.1,
    fun node hnode => Node.writable_of_isWritable ((h part hpart).2.2 node hnode)⟩

/-- Whether a value can be written, if values and nodes nest in it to a level at most. -/
def Value.isWritable : (levels : Nat) → Value → Bool
  | 0, _ => false
  | _ + 1, .float value => value.isFinite
  | levels + 1, .dictionary entries =>
    entries.all fun entry => isWritable levels entry.1 && entry.2.toList.all (isWritable levels)
  | levels + 1, .type tree => decide (tree.FitsTo levels)
  | _ + 1, .pointer handle | _ + 1, .reference handle => decide handle.Fits
  | _ + 1, .boolean _ | _ + 1, .integer _ | _ + 1, .string _ => true

theorem Value.writable_of_isWritable {value : Value} (h : value.isWritable levels = true) :
    value.Writable := by
  induction levels generalizing value with
  | zero => cases h
  | succ levels ih =>
    cases value with
    | boolean b => exact .boolean b
    | integer n => exact .integer n
    | float x => exact .float h
    | string text => exact .string text
    | type tree => exact .type (of_decide_eq_true h : tree.FitsTo levels).writable
    | pointer handle => exact .pointer (of_decide_eq_true h)
    | reference handle => exact .reference (of_decide_eq_true h)
    | dictionary entries =>
      have hentries : ∀ entry ∈ entries, isWritable levels entry.1 = true ∧
          ∀ value ∈ entry.2.toList, isWritable levels value = true := fun entry hentry =>
        (Bool.and_eq_true_iff.mp (List.all_eq_true.mp h entry hentry)).imp_right List.all_eq_true.mp
      exact .dictionary (fun entry hentry => ih (hentries entry hentry).1)
        fun entry hentry value hvalue =>
          ih ((hentries entry hentry).2 value (Option.mem_toList.mpr hvalue))

/-- What a composite holds fits, and what nests in it nests to a level at most. -/
def Composite.FitsTo (levels : Nat) (composite : Composite) : Prop :=
  (∀ slot ∈ Slot.all, ∀ handle ∈ composite.links.get slot, handle.Fits) ∧
    (∀ handle ∈ composite.links.retainers, handle.Fits) ∧
    composite.type.FitsTo levels ∧
    (∀ node ∈ composite.statements.nodes, node.isWritable levels = true) ∧
    (∀ entry ∈ composite.imports.entries, entry.2.Fits) ∧
    (∀ entry ∈ composite.members.entries, ∀ overload ∈ entry.2, overload.type.FitsTo levels ∧
      (∀ value ∈ overload.value, value.isWritable levels = true) ∧
      ∀ observer ∈ overload.observers, observer.function.Fits) ∧
    ∀ observer ∈ composite.observers, observer.function.Fits

instance (levels : Nat) (composite : Composite) : Decidable (composite.FitsTo levels) :=
  inferInstanceAs (Decidable (_ ∧ _))

theorem Composite.FitsTo.writable {composite : Composite} (h : composite.FitsTo levels) :
    composite.Writable := by
  obtain ⟨hslots, hretainers, htype, hstatements, himports, hmembers, hobservers⟩ := h
  refine ⟨fun slot => hslots slot ?_, hretainers, htype.writable, ?_, himports, ?_, hobservers⟩
  · cases slot <;> decide
  · exact fun node hnode => Node.writable_of_isWritable (hstatements node hnode)
  · intro entry hentry overload hoverload
    obtain ⟨htype, hvalue, hobservers⟩ := hmembers entry hentry overload hoverload
    exact ⟨htype.writable, fun value hmem =>
      Value.writable_of_isWritable (hvalue value hmem), hobservers⟩

/-- What a store holds fits, and what nests in it nests to a level at most. -/
def Store.FitsTo (levels : Nat) (store : Store) : Prop :=
  ∀ cell ∈ store.cells.toList, cell.generation < 2 ^ 32 ∧ ∀ composite ∈ cell.composite,
    composite.FitsTo levels

instance (levels : Nat) (store : Store) : Decidable (store.FitsTo levels) :=
  inferInstanceAs (Decidable (∀ cell ∈ store.cells.toList, _))

theorem Store.FitsTo.writable {store : Store} (h : store.FitsTo levels) : store.Writable :=
  fun cell hcell =>
    ⟨(h cell hcell).1, fun composite hcomposite => ((h cell hcell).2 composite hcomposite).writable⟩

/-- Whether a leaf is read back whatever the digits of floats. -/
def Json.isPlain : Json → Bool
  | .int value => decide (Word.least ≤ value ∧ value ≤ Reading.wordLimit)
  | .float _ => false
  | _ => true

theorem Json.legible_of_all_isPlain {leaves : List Json} (h : leaves.all Json.isPlain = true) :
    ∀ leaf ∈ leaves, leaf.Legible := by
  intro leaf hleaf
  have hplain := List.all_eq_true.mp h leaf hleaf
  cases leaf with
  | int value =>
    have hword : Word.least ≤ value ∧ value ≤ Reading.wordLimit := of_decide_eq_true hplain
    exact hword
  | float value => cases hplain
  | _ => exact trivial

/-! ## Runs -/

/-- But for the floats in members, all that a store holds fits the fields it is written to: handles,
    positions, and the literals of nodes. -/
def Store.Sized (store : Store) : Prop := (∀ x ∈ store.floats, x.isFinite = true) → store.Writable

open Run Discipline in
/-- A module that runs on an empty store leaves no composite that refers to a
    slot that is not there. -/
theorem Run.bounded_of_runModule {preferences : Preferences} {tokens : Array Token}
    {depth : Nat} {tree : Node} {m : Machine}
    (hrun : runModule (rules depth) tree { Machine.withStore .empty preferences with tokens } =
      .ok ((), m)) :
    ∀ handle composite, m.store.get? handle = some composite →
      ∀ reference ∈ composite.references, reference.index < m.store.size := by
  have hfits := Store.isSeed_empty.fits preferences tokens
  obtain ⟨hc, ho⟩ := rules_keep_balance depth
  have hafter :=
    (runModule_keeps (admits_balance (hc noEdges)) (ho noEdges noEdges) tree hfits).post hrun
  intro handle composite hget reference hreference
  exact hafter.holds.bounded handle composite.bare (Store.bare?_of_get? hget) reference
    (List.mem_append_left _ hreference)

namespace Program

open Snapshot Sketch

theorem bounded_of_interpret {program : Program} {preferences : Preferences} {done : Interpretation}
    (h : program.interpret .empty preferences = some done) :
    ∀ handle composite, done.store.get? handle = some composite →
      ∀ reference ∈ composite.references, reference.index < done.store.size := by
  unfold interpret Rules.unbounded at h
  obtain ⟨⟨⟩, m, hrun, rfl⟩ := Run.exists_ok_of_map h
  exact Run.bounded_of_runModule hrun

/-- What a run on an empty store leaves is read back from its snapshot if and only if the floats in
    its members have digits and the snapshot does not nest too deep; and then it is
    read back as it was. -/
theorem resumes_iff {program : Program} {preferences : Preferences} {done : Interpretation}
    (hrun : program.interpret .empty preferences = some done) (hsized : done.store.Sized)
    (hlegible : ∀ leaf ∈ (ofStore done.store).toJson.leaves, leaf.Legible) :
    ((∃ store, restore (save done.store) = .ok store) ↔
      (∀ x ∈ done.store.floats, x.isFinite = true) ∧
        (ofStore done.store).toJson.depth ≤ nestingLimit) ∧
    ∀ store, restore (save done.store) = .ok store → store = done.store := by
  have hreads : (∀ x ∈ done.store.floats, x.isFinite = true) →
    (ofStore done.store).toJson.depth ≤ nestingLimit →
      restore (save done.store) = .ok done.store := by
    intro hfinite hdepth
    have hversion : (ofStore done.store).version < 2 ^ 32 := show snapshotVersion < 2 ^ 32 by decide
    have hread := reads hversion (hsized hfinite) .direct nestingLimit hdepth (Nat.le_refl _)
    rw [restore, save, run_render hlegible, hread]
    exact toStore_ofStore (firstDangling_eq_none (bounded_of_interpret hrun))
  -- Whatever is restored has met the conditions, under which only the store itself can be.
  refine ⟨⟨?_, fun h => ⟨done.store, hreads h.1 h.2⟩⟩, fun store hstore => ?_⟩
  · rintro ⟨store, hstore⟩
    exact needs_of_restore hlegible hstore
  · obtain ⟨hfinite, hdepth⟩ := needs_of_restore hlegible hstore
    exact Except.ok.inj (hstore.symm.trans (hreads hfinite hdepth))

/-- A program that keeps a float. -/
def keeping (text : String) : Program :=
  { tree := .bare (.module [variableNamed "x" (.bare (.literal .float (.text text)))]) }

/-- A run that leaves a tenth in a member goes on from its snapshot. -/
theorem resumes_keeping_tenth : ∃ done : Interpretation,
    (keeping "0.1").interpret .empty {} = some done ∧
    done.store.Sized ∧ done.store.floats = [0.1] ∧ restore (save done.store) = .ok done.store := by
  have hchecks : ((keeping "0.1").interpret .empty {}).any
    (fun done => decide (done.store.FitsTo 8 ∧
      done.store.floats = [0.1] ∧ (ofStore done.store).toJson.floats = [0.1] ∧
      (ofStore done.store).toJson.depth ≤ nestingLimit)) = true := by
    decide +kernel
  obtain ⟨done, hrun, hdone⟩ := (Option.any_eq_true _ _).mp hchecks
  obtain ⟨hfits, hfloats, hwritten, hdepth⟩ := of_decide_eq_true hdone
  have hsized : done.store.Sized := fun _ => hfits.writable
  have hlegible : ∀ leaf ∈ (ofStore done.store).toJson.leaves, leaf.Legible := by
    refine Json.legible_of_mem_leaves
      (ranged (show snapshotVersion < 2 ^ 32 by decide) hfits.writable) ?_
    rw [hwritten]
    exact List.forall_mem_singleton.mpr exact_tenth
  obtain ⟨hiff, hsame⟩ := resumes_iff hrun hsized hlegible
  obtain ⟨store, hstore⟩ :=
    hiff.mpr ⟨by rw [hfloats]; exact List.forall_mem_singleton.mpr isFinite_tenth, hdepth⟩
  exact ⟨done, hrun, hsized, hfloats, hstore.trans (congrArg Except.ok (hsame store hstore))⟩

/-- A program that puts an array around an array, again and again. -/
def nesting (times : Nat) : Program :=
  { tree := .bare (.module (variableNamed "x" (.bare .nilLiteral) ::
      List.replicate times (assignment "x" (.bare (.arrayLiteral [named "x"]))))) }

/-- The text of a module is read as a program. -/
theorem ofText_render {tree : Node} (hmodule : isModule tree = true) (hwritable : tree.Writable)
    (hdepth : (toJson { tree }).depth ≤ nestingLimit)
    (hlegible : ∀ leaf ∈ (toJson { tree }).leaves, leaf.Legible) :
      ofText (toJson { tree }).render = .ok { tree } := by
  have hreads : Program.decoder.Reads nestingLimit (toJson { tree }) { tree } :=
    Decoder.reads_record (by decide) <|
      .written (Decoder.reads_list fun _ ht => absurd ht List.not_mem_nil) <|
      .written (Node.reads hwritable) .done
  rw [ofText, run_render hlegible, hreads .direct nestingLimit hdepth (Nat.le_refl _)]
  exact if_pos hmodule

/-- The text of a program is read and its run comes to its end, but what it leaves is
    not read back. -/
def EndsUnresumed (program : Program) : Prop :=
  ofText program.toJson.render = .ok program ∧ ∃ done : Interpretation,
    program.interpret .empty {} = some done ∧ ∀ store, restore (save done.store) ≠ .ok store

/-- A snapshot in which no float is written is refused where one had no digits, or
    for its nesting. -/
theorem endsUnresumed_of_plain {tree : Node}
    (htree : isModule tree = true ∧ tree.isWritable levels = true ∧
      (toJson { tree }).depth ≤ nestingLimit ∧ (toJson { tree }).leaves.all Json.isPlain = true)
    (hends : (interpret { tree } .empty {}).any (fun done =>
      decide ((∃ x ∈ done.store.floats, x.isFinite = false) ∨
        nestingLimit < (ofStore done.store).toJson.depth) &&
        (ofStore done.store).toJson.leaves.all Json.isPlain) = true) : EndsUnresumed { tree } := by
  obtain ⟨hmodule, hwritable, hdepth, hplain⟩ := htree
  obtain ⟨done, hrun, hdone⟩ := (Option.any_eq_true _ _).mp hends
  obtain ⟨hcause, hwritten⟩ := Bool.and_eq_true_iff.mp hdone
  refine ⟨ofText_render hmodule (Node.writable_of_isWritable hwritable) hdepth
    (Json.legible_of_all_isPlain hplain), done, hrun, fun store hstore => ?_⟩
  obtain ⟨hfinite, hshallow⟩ := needs_of_restore (Json.legible_of_all_isPlain hwritten) hstore
  rcases of_decide_eq_true hcause with ⟨x, hx, hinfinite⟩ | hdeep
  · rw [hfinite x hx] at hinfinite
    cases hinfinite
  · omega

/-- So it is with a float too large for digits, and with arrays that nest. -/
theorem unresumed_runs : EndsUnresumed (keeping "1e400") ∧ EndsUnresumed (nesting 41) := by
  constructor
  · exact endsUnresumed_of_plain (show _ ∧ (keeping "1e400").tree.isWritable 8 = true ∧
      _ by decide +kernel)
      (by decide +kernel)
  · exact endsUnresumed_of_plain (show _ ∧ (nesting 41).tree.isWritable 8 = true ∧
      _ by decide +kernel)
      (by decide +kernel)

end Program

end CompositeGraph
