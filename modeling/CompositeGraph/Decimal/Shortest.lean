/-
  THE SHORTEST DIGITS of a float.

  A float stands for every real that rounds to it: an interval around its value, ends included when
  the mantissa is even.  Its shortest digits are those of the decimal with the fewest digits in that
  interval, and of two such decimals the nearer one.  Only the two neighbours of the value on a
  decimal grid need a look: if any point of the grid lies in the interval, so does one of them.

    1. DIGITS.    `shortest`: the digits and the power of ten of a positive float, with the tie rule
                  as a parameter (two neighbours can be equally near).
    2. LAYOUT.    `Layout` says how digits are set as text; `Layout.write` sets them.
-/
import CompositeGraph.Decimal.Binary

namespace CompositeGraph.Decimal

/-- Which of two equally near decimals is taken. -/
inductive Tie where
  | toEven
  | up
  deriving DecidableEq, Repr

/-- `num / den ≤ digits · 10^power`. -/
def atMost (num den digits : Nat) (power : Int) : Bool :=
  let (a, b) := scale 10 power digits 1
  num * b ≤ a * den

/-- `digits · 10^power ≤ num / den`. -/
def atLeast (num den digits : Nat) (power : Int) : Bool :=
  let (a, b) := scale 10 power digits 1
  a * den ≤ num * b

/-- The power of ten at or below `num / den`. -/
def leadingPower (num den : Nat) : Int :=
  let bits : Int := (Nat.log2 num : Int) - Nat.log2 den
  let guess := bits * 30103 / 100000
  if atLeast num den 1 (guess + 1) then guess + 1
  else if atLeast num den 1 guess then guess
  else if atLeast num den 1 (guess - 1) then guess - 1
  else guess - 2

/-- Digits times a power of ten. -/
structure Digits where
  digits : Nat
  power : Int
  deriving DecidableEq, Repr

/-- Moves zeros at the end of the digits into the power. -/
def Digits.trim : Nat → Digits → Digits
  | 0, d => d
  | fuel + 1, d =>
    if d.digits ≠ 0 ∧ d.digits % 10 = 0 then trim fuel ⟨d.digits / 10, d.power + 1⟩ else d

/-- The interval of reals that round to a float, in quarters of its last place. -/
structure Interval where
  value : Nat × Nat
  low : Nat × Nat
  high : Nat × Nat
  closed : Bool

def Interval.ofBinary (b : Binary) : Interval :=
  let quarters (n : Nat) := scale 2 (b.exponent - 2) n 1
  let below := if b.mantissa = leadingBit ∧ b.exponent ≠ -1074 then 1 else 2
  { value := quarters (4 * b.mantissa)
    low := quarters (4 * b.mantissa - below)
    high := quarters (4 * b.mantissa + 2)
    closed := b.mantissa % 2 = 0 }

def Interval.holds (i : Interval) (digits : Nat) (power : Int) : Bool :=
  if i.closed then
    atMost i.low.1 i.low.2 digits power && atLeast i.high.1 i.high.2 digits power
  else
    !atLeast i.low.1 i.low.2 digits power && !atMost i.high.1 i.high.2 digits power

/-- The neighbour of the value on the grid `10^power` that lies in the interval,
    the nearer one if both do. -/
def Interval.onGrid (i : Interval) (tie : Tie) (power : Int) : Option Digits :=
  let (a, b) := scale 10 (-power) i.value.1 i.value.2
  let low := a / b
  let twice := 2 * (a % b)
  match i.holds low power, i.holds (low + 1) power with
  | false, false => none
  | true, false => some ⟨low, power⟩
  | false, true => some ⟨low + 1, power⟩
  | true, true =>
    let up : Bool :=
      if twice = b then (match tie with | .up => true | .toEven => low % 2 == 1) else
        decide (b < twice)
    some ⟨if up then low + 1 else low, power⟩

/-- The shortest digits of a positive float, at most seventeen of them. -/
def shortest (tie : Tie) (b : Binary) : Digits :=
  let i := Interval.ofBinary b
  let lead := leadingPower i.value.1 i.value.2
  match (List.range 18).findSome? fun (n : Nat) => i.onGrid tie (lead - n) with
  | some d => d.trim 20
  | none => ⟨0, 0⟩

/-! ## Setting digits as text -/

/-- How floats are written. -/
structure Layout where
  tie : Tie
  /-- Which positions of the point (counted from the first digit) are written without exponent. -/
  plain : Int → Bool
  /-- Whether a whole number keeps a zero behind its point. -/
  fraction : Bool
  notANumber : String
  infinite : String

def zeros (n : Nat) : String := String.ofList (List.replicate n '0')

/-- Digits without sign.  An exponent always has one. -/
def Layout.set (l : Layout) (d : Digits) : String :=
  let text := toString d.digits
  let point : Int := text.length + d.power
  if l.plain point then
    if 0 ≤ d.power then text ++ zeros d.power.toNat ++ (if l.fraction then ".0" else "")
    else if 0 < point then
      String.ofList (text.toList.take point.toNat) ++ "." ++
        String.ofList (text.toList.drop point.toNat)
    else "0." ++ zeros (-point).toNat ++ text
  else
    let rest := text.toList.drop 1
    String.ofList (text.toList.take 1) ++
      (if rest.isEmpty then "" else "." ++ String.ofList rest) ++
      "e" ++ (if point < 1 then "" else "+") ++ toString (point - 1)

/-- The text of a float. -/
def Layout.write (l : Layout) (value : Float) : String :=
  if value.isNaN then l.notANumber
  else
    let sign := if signBit value then "-" else ""
    if value.isInf then sign ++ l.infinite
    else if value == 0.0 then sign ++ (if l.fraction then "0.0" else "0")
    else sign ++ l.set (shortest l.tie (Binary.ofFloat value))

/-- Floats in JSON: a point always, an exponent from `1e+16` on and below `1e-5`. -/
def Layout.json : Layout :=
  { tie := .toEven, plain := fun point => -5 < point && point ≤ 16, fraction := true,
    notANumber := "null", infinite := "null" }

/-- Floats shown to a reader: no exponent, and a point only where there is a fraction. -/
def Layout.display : Layout :=
  { tie := .up, plain := fun _ => true, fraction := false, notANumber := "NaN", infinite := "inf" }

end CompositeGraph.Decimal
