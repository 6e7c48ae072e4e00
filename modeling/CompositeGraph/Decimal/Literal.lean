/-
  NUMBERS READ FROM TEXT.

  Integer text is an optional sign and at least one digit.  Float text is an optional sign, digits
  with at most one point among them (at least one digit), and an optional exponent; `inf`,
  `infinity` and `nan` are floats in any case of letters.  A float is the one
  nearest to what is written.
-/
import CompositeGraph.Decimal.Binary
import CompositeGraph.Word

namespace CompositeGraph.Decimal

def digitValue (c : Char) : Nat := c.toNat - '0'.toNat

/-- The natural written by a run of digits. -/
def naturalOf (digits : List Char) : Nat := digits.foldl (fun n c => 10 * n + digitValue c) 0

/-- Splits off an optional sign; `true` is minus. -/
def splitSign : List Char → Bool × List Char
  | '-' :: rest => (true, rest)
  | '+' :: rest => (false, rest)
  | text => (false, text)

/-- Reads integer text; none if it is not, or out of range. -/
def readInteger (text : String) : Option Int64 :=
  let (negative, digits) := splitSign text.toList
  if digits.isEmpty || !digits.all Char.isDigit then none
  else Word.ofInt? (if negative then -(naturalOf digits : Int) else naturalOf digits)

/-- The float nearest to `digits · 10^power`.  Powers far outside the range of floats are settled
    by the number of digits alone. -/
def ofScientific (negative : Bool) (digits : Nat) (power : Int) : Float :=
  if digits = 0 then withSign negative 0.0
  else
    let lead : Int := (toString digits).length + power
    if lead < -400 then withSign negative 0.0
    else if 400 < lead then withSign negative (1.0 / 0.0)
    else
      let (num, den) := scale 10 power digits 1
      nearest negative num den

/-- Reads the exponent that may follow the digits; none if something else does. -/
def readExponent : List Char → Option Int
  | [] => some 0
  | mark :: rest =>
    if mark == 'e' || mark == 'E' then
      let (negative, digits) := splitSign rest
      if digits.isEmpty || !digits.all Char.isDigit then none
      else some (if negative then -(naturalOf digits : Int) else naturalOf digits)
    else none

/-- Reads float text. -/
def readFloat (text : String) : Option Float :=
  let (negative, body) := splitSign text.toList
  match (String.ofList body).toLower with
  | "inf" | "infinity" => some (withSign negative (1.0 / 0.0))
  | "nan" => some (0.0 / 0.0)
  | _ =>
    let whole := body.takeWhile Char.isDigit
    let rest := body.dropWhile Char.isDigit
    let (fraction, rest) :=
      match rest with
      | '.' :: rest => (rest.takeWhile Char.isDigit, rest.dropWhile Char.isDigit)
      | rest => ([], rest)
    if whole.isEmpty && fraction.isEmpty then none
    else
      (readExponent rest).map fun power =>
        ofScientific negative (naturalOf (whole ++ fraction)) (power - fraction.length)

end CompositeGraph.Decimal
