/-
  DECODERS: from a draft to a value of the domain.

  A decoder walks its draft from front to back and stops at the first thing wrong with it.

    1. PASSES.    A draft is decoded `direct`ly as its text is read, or after it was `held` back
                  whole until something further on said what it is.  In a held draft every mismatch
                  is just that; in a direct one, an item too many or a token where a name should
                  stand is a fault of the text.
    2. LEAVES.    Booleans, strings, bounded integers, floats.
    3. SHAPES.    What may be `null`, lists, pairs, named entries, names of a closed set.
    4. RECORDS.   Named fields in any order, or their values alone as a list in the order of the
                  declaration.  `Presence` says what leaving a field out means.
    5. TEXTS.     `Decoder.run` decodes a whole text.
-/
import CompositeGraph.Json.Reader
import CompositeGraph.Assoc

namespace CompositeGraph

/-- Whether a draft is decoded as its text is read, or was held back whole first. -/
inductive Pass where
  | direct
  | held
  deriving DecidableEq, Repr

/-- Decodes a draft, with a number of levels of nesting still allowed. -/
abbrev Decoder (α : Type) := Pass → Nat → Draft → Except Fault α

namespace Decoder

variable {α β σ : Type}

/-- What stands where something else was expected: the fault of a broken token, or a mismatch. -/
def unexpected : Draft → Except Fault α
  | .broken fault => .error fault
  | .unusable => .error .malformed
  | _ => .error .mismatched

/-- The fault of an item too many. -/
def surplus : Pass → Fault
  | .direct => .malformed
  | .held => .mismatched

/-- The levels left inside a list or object. -/
def inside : Nat → Except Fault Nat
  | 0 => .error .malformed
  | levels + 1 => .ok levels

/-! ## Leaves -/

def bool : Decoder Bool
  | _, _, .bool value => .ok value
  | _, _, draft => unexpected draft

def text : Decoder String
  | _, _, .text value => .ok value
  | _, _, draft => unexpected draft

/-- An integer between two bounds, both included. -/
def integer (low high : Int) : Decoder Int
  | _, _, .int value => if low ≤ value ∧ value ≤ high then .ok value else .error .mismatched
  | _, _, draft => unexpected draft

/-- A natural number of so many bits. -/
def natural (bits : Nat) : Decoder Nat :=
  fun pass levels draft => Int.toNat <$> integer 0 (Nat.pow 2 bits - 1) pass levels draft

/-- A whole number of 64 bits with sign. -/
def word : Decoder Int64 :=
  fun pass levels draft => Int64.ofInt <$> integer Word.least Word.greatest pass levels draft

/-- A float; integers are accepted. -/
def float : Decoder Float
  | _, _, .float value => .ok value
  | _, _, .int value =>
    .ok (if value < 0 then -(Float.ofNat value.natAbs) else Float.ofNat value.natAbs)
  | _, _, draft => unexpected draft

/-! ## Shapes -/

/-- `null` is absence. -/
def nullable (decoder : Decoder α) : Decoder (Option α)
  | _, _, .null => .ok none
  | pass, levels, draft => some <$> decoder pass levels draft

/-- A list. -/
def list (decoder : Decoder α) : Decoder (List α)
  | pass, levels, .list items fault => do
    let levels ← inside levels
    let values ← items.mapM (decoder pass levels)
    Draft.raise fault
    return values
  | _, _, draft => unexpected draft

/-- A list of exactly two. -/
def pair (first : Decoder α) (second : Decoder β) : Decoder (α × β)
  | pass, levels, .list items fault => do
    let levels ← inside levels
    match items with
    | [] => do Draft.raise fault; .error .mismatched
    | [a] => do let _ ← first pass levels a; Draft.raise fault; .error .mismatched
    | a :: b :: more => do
      let a ← first pass levels a
      let b ← second pass levels b
      if !more.isEmpty then .error (surplus pass)
      Draft.raise fault
      return (a, b)
  | _, _, draft => unexpected draft

/-- An object as named entries; of a repeated name the last value counts. -/
def entries (decoder : Decoder α) : Decoder (Assoc α)
  | pass, levels, .object fields fault => do
    let levels ← inside levels
    let values ← fields.foldlM
      (fun read (name, draft) => return read.put name (← decoder pass levels draft)) .empty
    Draft.raise fault
    return values
  | _, _, draft => unexpected draft

/-- The one field of an object that names a case and holds its contents. -/
def soleField (pass : Pass) (levels : Nat) (fields : List (String × Draft)) (fault : Option Fault)
    (decode : String → Nat → Draft → Except Fault α) : Except Fault α := do
  let levels ← inside levels
  match fields with
  | [] => do Draft.raise fault; .error (surplus pass)
  | (name, draft) :: more => do
    let value ← decode name levels draft
    if !more.isEmpty then .error (surplus pass)
    Draft.raise fault
    return value

/-- A name of a closed set: a string, or an object with that one field and `null` in it. -/
def name (table : String → Option α) : Decoder α
  | _, _, .text value => (table value).elim (.error .mismatched) .ok
  | pass, levels, .object fields fault =>
    soleField pass levels fields fault fun name _ draft =>
      match table name with
      | none => .error .mismatched
      | some value =>
        match draft with
        | .null => .ok value
        | draft => unexpected draft
  | _, _, .broken fault => .error fault
  | pass, _, _ => .error (surplus pass)

/-! ## Records -/

/-- What leaving a field out of a record means. -/
inductive Presence where
  /-- It is a mismatch. -/
  | needed
  /-- It is `null`; in a record given as a list it is a mismatch. -/
  | nullable
  /-- The field keeps its default. -/
  | defaulted
  deriving DecidableEq, Repr

/-- A field of a record under construction. -/
structure Field (σ : Type) where
  /-- The name of the field, then others it may have. -/
  names : List String
  presence : Presence
  decode : Decoder (σ → σ)

/-- A field that is decoded and put in. -/
def field (name : String) (presence : Presence) (decoder : Decoder α) (put : α → σ → σ) : Field σ :=
  ⟨[name], presence, fun pass levels draft => put <$> decoder pass levels draft⟩

/-- Decodes fields by name, in the order of the document. -/
def byName (declared : List (Field σ)) (pass : Pass) (levels : Nat) :
    List (String × Draft) → List Nat → σ → Except Fault (List Nat × σ)
  | [], seen, state => .ok (seen, state)
  | (name, draft) :: rest, seen, state =>
    match declared.zipIdx.find? fun (f, _) => f.names.contains name with
    | none => do draft.skip; byName declared pass levels rest seen state
    | some (f, i) =>
      if seen.contains i then .error .mismatched
      else do
        let update ← f.decode pass levels draft
        byName declared pass levels rest (i :: seen) (update state)

/-- Decodes fields by position. -/
def byPosition (pass : Pass) (levels : Nat) (fault : Option Fault) :
    List (Field σ) → List Draft → σ → Except Fault σ
  | [], items, state => do
    if !items.isEmpty then .error (surplus pass)
    Draft.raise fault
    return state
  | f :: declared, [], state => do
    Draft.raise fault
    if f.presence = .defaulted then byPosition pass levels fault declared [] state
    else .error .mismatched
  | f :: declared, item :: items, state => do
    let update ← f.decode pass levels item
    byPosition pass levels fault declared items (update state)

/-- A record, from its defaults on. -/
def record (start : σ) (declared : List (Field σ)) : Decoder σ
  | pass, levels, .object fields fault => do
    let levels ← inside levels
    let (seen, state) ← byName declared pass levels fields [] start
    Draft.raise fault
    if declared.zipIdx.any fun (f, i) => f.presence = .needed && !seen.contains i then
      .error .mismatched
    return state
  | pass, levels, .list items fault => do
    let levels ← inside levels
    byPosition pass levels fault declared items start
  | _, _, draft => unexpected draft

/-! ## Texts -/

/-- Decodes a text whole; anything behind the value counts last. -/
def run (decoder : Decoder α) (text : String) : Except Fault α := do
  let document := Document.read text
  let value ← decoder .direct nestingLimit document.draft
  Draft.raise document.trailing
  return value

end Decoder

end CompositeGraph
