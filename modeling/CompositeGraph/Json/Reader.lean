/-
  READING JSON TEXT into a draft.

  The text is read from front to back, one character of look-ahead.  Every reader gives what it read
  and the rest of the text, or no rest once the text has gone bad; nothing is read beyond a fault.

    1. STRINGS.    Escapes, with surrogate pairs.  A surrogate without its partner has no character,
                   so the string is `unusable`, but its text is of good form.
    2. NUMBERS.    Without point and exponent a number is an integer as long as it fits in 64 bits.
                   Otherwise it is a float: the leading digits that fit in 64 bits, scaled by a
                   power of ten.  That scaling is done in floats, so the last
                   place can be off by one.
    3. DOCUMENTS.  `Draft.read`: one value and nothing but blanks behind it.
-/
import CompositeGraph.Json.Draft
import CompositeGraph.Decimal.Literal

namespace CompositeGraph

/-- What was read, and the rest of the text unless it has gone bad. -/
structure Reading where
  draft : Draft
  rest : Option (List Char)

namespace Reading

open Decimal (digitValue naturalOf)

def isBlank (c : Char) : Bool := c == ' ' || c == '\n' || c == '\t' || c == '\r'

def skipBlank (text : List Char) : List Char := text.dropWhile isBlank

def broken (fault : Fault) : Reading := ⟨.broken fault, none⟩

/-- The rest of a word such as `null` whose first letter is read. -/
def word (value : Draft) : List Char → List Char → Reading
  | [], text => ⟨value, some text⟩
  | _ :: _, [] => broken .truncated
  | expected :: word', c :: text =>
    if c == expected then word value word' text else broken .malformed

/-! ## Strings -/

def hexValue? (c : Char) : Option Nat :=
  if c.isDigit then some (c.toNat - '0'.toNat)
  else if 'a' ≤ c && c ≤ 'f' then some (c.toNat - 'a'.toNat + 10)
  else if 'A' ≤ c && c ≤ 'F' then some (c.toNat - 'A'.toNat + 10)
  else none

/-- The four hexadecimal digits of an escape. -/
def hexUnit : List Char → Except Fault (Nat × List Char)
  | a :: b :: c :: d :: rest =>
    match hexValue? a, hexValue? b, hexValue? c, hexValue? d with
    | some a, some b, some c, some d => .ok (((a * 16 + b) * 16 + c) * 16 + d, rest)
    | _, _, _, _ => .error .malformed
  | few => if (String.ofList few).utf8ByteSize < 4 then .error .truncated else .error .malformed

/-- What an escape after the backslash stands for: a character, or none for a lone surrogate. -/
def escaped : List Char → Except Fault (Option Char × List Char)
  | [] => .error .truncated
  | '"' :: rest => .ok (some '"', rest)
  | '\\' :: rest => .ok (some '\\', rest)
  | '/' :: rest => .ok (some '/', rest)
  | 'b' :: rest => .ok (some (Char.ofNat 8), rest)
  | 'f' :: rest => .ok (some (Char.ofNat 12), rest)
  | 'n' :: rest => .ok (some '\n', rest)
  | 'r' :: rest => .ok (some '\r', rest)
  | 't' :: rest => .ok (some '\t', rest)
  | 'u' :: rest => do
    let (unit, rest) ← hexUnit rest
    if 0xDC00 ≤ unit ∧ unit ≤ 0xDFFF then return (none, rest)
    if unit < 0xD800 ∨ 0xDBFF < unit then return (some (Char.ofNat unit), rest)
    match rest with
    | '\\' :: 'u' :: more =>
      let (low, more) ← hexUnit more
      if 0xDC00 ≤ low ∧ low ≤ 0xDFFF then
        return (some (Char.ofNat ((unit - 0xD800) * 1024 + (low - 0xDC00) + 0x10000)), more)
      return (none, more)
    | [] | ['\\'] => .error .truncated
    | rest => return (none, rest)
  | _ => .error .malformed

/-- The text of a string after its opening quote: its characters, none if it has no value. -/
def characters : Nat → List Char → Option (List Char) → Except Fault (Option String × List Char)
  | 0, _, _ => .error .truncated
  | _ + 1, [], _ => .error .truncated
  | _ + 1, '"' :: rest, read => .ok (read.map fun cs => String.ofList cs.reverse, rest)
  | n + 1, '\\' :: rest, read => do
    let (c, rest) ← escaped rest
    characters n rest (read.bind fun cs => c.map (· :: cs))
  | n + 1, c :: rest, read =>
    if c.toNat < 32 then .error .malformed else characters n rest (read.map (c :: ·))

def string (text : List Char) : Except Fault (Option String × List Char) :=
  characters (text.length + 1) text (some [])

/-! ## Numbers -/

/-- The largest number read as an integer. -/
def wordLimit : Nat := 18446744073709551615

/-- Takes digits in as long as the number stays within `wordLimit`; gives the number and how many
    digits were taken. -/
def takeDigits (significand : Nat) : List Char → Nat × Nat
  | [] => (significand, 0)
  | d :: rest =>
    let next := 10 * significand + digitValue d
    if wordLimit < next then (significand, 0)
    else
      let (all, taken) := takeDigits next rest
      (all, taken + 1)

/-- Powers of ten as floats. -/
def tenTo (n : Nat) : Float := Decimal.ofScientific false 1 n

/-- Scales by a power of ten in floats; none beyond the range.  A power below `-308` is divided out
    in steps of `1e308`. -/
def scaled : Nat → Float → Int → Option Float
  | 0, value, _ => some value
  | fuel + 1, value, power =>
    if power.natAbs ≤ 308 then
      if 0 ≤ power then
        let value := value * tenTo power.natAbs
        if value.isInf then none else some value
      else some (value / tenTo power.natAbs)
    else if value == 0.0 then some value
    else if 0 ≤ power then none
    else scaled fuel (value / tenTo 308) (power + 308)

/-- The float `significand · 10^power`; none beyond the range. -/
def floatOf (significand : Nat) (power : Int) : Option Float :=
  scaled 16 (Float.ofNat significand) (max power (-4000))

/-- A float, or a token without a value. -/
def numberDraft (negative : Bool) : Option Float → Draft
  | some value => .float (Decimal.withSign negative value)
  | none => .unusable

/-- The largest exponent that is counted; beyond it only the sign of the exponent matters. -/
def exponentLimit : Nat := 2147483647

/-- The exponent after its mark, then the float. -/
def exponent (negative : Bool) (significand : Nat) (power : Int) (text : List Char) : Reading :=
  let (down, text) := Decimal.splitSign text
  match text with
  | [] => broken .truncated
  | c :: _ =>
    if !c.isDigit then broken .malformed
    else
      let shift := naturalOf (text.takeWhile Char.isDigit)
      let rest := text.dropWhile Char.isDigit
      let value :=
        if exponentLimit < shift then (if significand ≠ 0 ∧ !down then none else some 0.0)
        else floatOf significand (if down then power - shift else power + shift)
      ⟨numberDraft negative value, some rest⟩

/-- What follows the digits of a fraction, or of a whole number that is a float. -/
def afterDigits (negative : Bool) (significand : Nat) (power : Int) (text : List Char) : Reading :=
  match text with
  | 'e' :: rest | 'E' :: rest => exponent negative significand power rest
  | rest => ⟨numberDraft negative (floatOf significand power), some rest⟩

/-- The fraction after its point, then the float. -/
def fraction (negative : Bool) (significand : Nat) (power : Int) (text : List Char) : Reading :=
  let digits := text.takeWhile Char.isDigit
  let rest := text.dropWhile Char.isDigit
  if digits.isEmpty then broken (if rest.isEmpty then .truncated else .malformed)
  else
    let (significand, taken) := takeDigits significand digits
    afterDigits negative significand (power - taken) rest

/-- What follows the digits of a whole number, the last `dropped` of them not taken in.  `-0` is a
    float, since integers have no negative zero. -/
def afterWhole (negative : Bool) (significand dropped : Nat) (text : List Char) : Reading :=
  match text with
  | '.' :: rest => fraction negative significand dropped rest
  | rest =>
    if dropped = 0 ∧ !(rest.head? == some 'e' || rest.head? == some 'E') then
      if !negative then ⟨.int significand, some rest⟩
      else if 0 < significand ∧ Word.fits (-significand) then
        ⟨.int (-(significand : Int)), some rest⟩
      else ⟨.float (-(Float.ofNat significand)), some rest⟩
    else afterDigits negative significand dropped rest

/-- A number after its optional minus. -/
def number (negative : Bool) (text : List Char) : Reading :=
  let digits := text.takeWhile Char.isDigit
  let rest := text.dropWhile Char.isDigit
  match digits with
  | [] => broken (if rest.isEmpty then .truncated else .malformed)
  | '0' :: _ :: _ => broken .malformed
  | digits =>
    let (significand, taken) := takeDigits 0 digits
    afterWhole negative significand (digits.length - taken) rest

/-! ## Documents -/

mutual

/-- A value, blanks before it allowed. -/
def value : Nat → List Char → Reading
  | 0, _ => broken .malformed
  | fuel + 1, text =>
    match skipBlank text with
    | [] => broken .truncated
    | 'n' :: rest => word .null ['u', 'l', 'l'] rest
    | 't' :: rest => word (.bool true) ['r', 'u', 'e'] rest
    | 'f' :: rest => word (.bool false) ['a', 'l', 's', 'e'] rest
    | '"' :: rest =>
      match string rest with
      | .error fault => broken fault
      | .ok (some text, rest) => ⟨.text text, some rest⟩
      | .ok (none, rest) => ⟨.unusable, some rest⟩
    | '[' :: rest => items fuel true rest []
    | '\x7b' :: rest => fields fuel true rest []
    | '-' :: rest => number true rest
    | c :: rest => if c.isDigit then number false (c :: rest) else broken .malformed

/-- The items of a list, those already read in reverse. -/
def items : Nat → Bool → List Char → List Draft → Reading
  | 0, _, _, _ => broken .malformed
  | fuel + 1, first, text, read =>
    let stop (fault : Fault) : Reading := ⟨.list read.reverse (some fault), none⟩
    let item (text : List Char) : Reading :=
      match value fuel text with
      | ⟨draft, none⟩ => ⟨.list (draft :: read).reverse none, none⟩
      | ⟨draft, some rest⟩ => items fuel false rest (draft :: read)
    match skipBlank text with
    | [] => stop .truncated
    | ']' :: rest => ⟨.list read.reverse none, some rest⟩
    | c :: rest =>
      if first then item (c :: rest)
      else if c == ',' then
        match skipBlank rest with
        | [] => stop .truncated
        | ']' :: _ => stop .malformed
        | rest => item rest
      else stop .malformed

/-- The fields of an object, those already read in reverse. -/
def fields : Nat → Bool → List Char → List (String × Draft) → Reading
  | 0, _, _, _ => broken .malformed
  | fuel + 1, first, text, read =>
    let stop (fault : Fault) : Reading := ⟨.object read.reverse (some fault), none⟩
    let bad (name : String) (fault : Fault) : Reading :=
      ⟨.object ((name, .broken fault) :: read).reverse none, none⟩
    let field (text : List Char) : Reading :=
      match string text with
      | .error fault => stop fault
      | .ok (none, _) => stop .malformed
      | .ok (some name, rest) =>
        match skipBlank rest with
        | [] => bad name .truncated
        | ':' :: rest =>
          match value fuel rest with
          | ⟨draft, none⟩ => ⟨.object ((name, draft) :: read).reverse none, none⟩
          | ⟨draft, some rest⟩ => fields fuel false rest ((name, draft) :: read)
        | _ => bad name .malformed
    match skipBlank text with
    | [] => stop .truncated
    | '\x7d' :: rest => ⟨.object read.reverse none, some rest⟩
    | '"' :: rest => if first then field rest else stop .malformed
    | ',' :: rest =>
      if first then stop .malformed
      else
        match skipBlank rest with
        | [] => stop .truncated
        | '"' :: rest => field rest
        | _ => stop .malformed
    | _ => stop .malformed

end

end Reading

/-- A text as a draft, and the fault of what stands behind the value. -/
structure Document where
  draft : Draft
  trailing : Option Fault

/-- Reads a text as one value with nothing but blanks behind it. -/
def Document.read (text : String) : Document :=
  let cs := text.toList
  match Reading.value (cs.length + 1) cs with
  | ⟨draft, none⟩ => ⟨draft, none⟩
  | ⟨draft, some rest⟩ =>
      ⟨draft, if (Reading.skipBlank rest).isEmpty then none else some .malformed⟩

/-- The document of a text, if it is JSON. -/
def Json.parse? (text : String) : Option Json :=
  let document := Document.read text
  match document.draft.settle nestingLimit, document.trailing with
  | .ok (), none => some document.draft.toJson
  | _, _ => none

end CompositeGraph
