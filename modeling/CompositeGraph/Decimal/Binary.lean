/-
  FLOATS AS EXACT NUMBERS.

  A finite float is `mantissa · 2^exponent` with natural mantissa.  Everything that has to be exact
  (the nearest float of a fraction, the remainder of a division, the digits of a float) is computed
  on that form in natural numbers, and only the result becomes a float again.

    1. DECODING.    `Binary.ofFloat`: the magnitude of a finite float, and its sign bit beside it.
    2. ROUNDING.    `roundDiv`: a quotient to the nearest natural, a half to the even one;
                    `nearest`: the float nearest to a fraction, infinite beyond the range.
    3. REMAINDER.   `remainder`: exact, with the sign of the dividend.
-/

namespace CompositeGraph.Decimal

/-- The number `mantissa · 2^exponent`. -/
structure Binary where
  mantissa : Nat
  exponent : Int
  deriving DecidableEq, Repr

/-- The sign bit of a float; set on `-0.0` too. -/
def signBit (value : Float) : Bool := value.toBits.toNat ≥ 9223372036854775808

/-- The leading bit of a mantissa, `2^52`; the bits below it are stored. -/
def leadingBit : Nat := 4503599627370496

/-- The magnitude of a finite float. -/
def Binary.ofFloat (value : Float) : Binary :=
  let bits := value.toBits.toNat
  let field : Nat := bits / leadingBit % 2048
  let fraction : Nat := bits % leadingBit
  if field = 0 then ⟨fraction, -1074⟩ else ⟨leadingBit + fraction, (field : Int) - 1075⟩

/-- The fraction `num / den · base^power` as a pair, by moving the power to the
    side where it is natural. -/
def scale (base : Nat) (power : Int) (num den : Nat) : Nat × Nat :=
  if power < 0 then (num, den * base.pow power.natAbs) else (num * base.pow power.natAbs, den)

/-- The natural nearest to `num / den`; a half goes to the even neighbour. -/
def roundDiv (num den : Nat) : Nat :=
  let low := num / den
  let twice := 2 * (num % den)
  if twice < den then low
  else if den < twice then low + 1
  else if low % 2 = 0 then low else low + 1

def withSign (negative : Bool) (value : Float) : Float := if negative then -value else value

/-- The float nearest to `num / den`; a half goes to the even mantissa, and what is beyond the
    largest float is infinite. -/
def nearest (negative : Bool) (num den : Nat) : Float :=
  if num = 0 then withSign negative 0.0
  else
    let guess : Int := (Nat.log2 num : Int) - Nat.log2 den - 53
    let (a, b) := scale 2 (-guess) num den
    let exponent := max (if a / b < 2 * leadingBit then guess else guess + 1) (-1074)
    let (a, b) := scale 2 (-exponent) num den
    let mantissa := roundDiv a b
    let bits :=
      if mantissa < leadingBit then mantissa
      else (exponent + 1075).toNat * leadingBit + (mantissa - leadingBit)
    withSign negative (Float.ofBits (min bits (2047 * leadingBit)).toUInt64)

/-- The remainder of dividing towards zero, exact; it has the sign of the dividend. -/
def remainder (x y : Float) : Float :=
  if !x.isFinite || y.isNaN || y == 0.0 then 0.0 / 0.0
  else if y.isInf || x == 0.0 then x
  else
    let a := Binary.ofFloat x
    let b := Binary.ofFloat y
    let exponent := min a.exponent b.exponent
    let m := a.mantissa * Nat.pow 2 (a.exponent - exponent).toNat
    let n := b.mantissa * Nat.pow 2 (b.exponent - exponent).toNat
    let (num, den) := scale 2 exponent (m % n) 1
    nearest (signBit x) num den

end CompositeGraph.Decimal
