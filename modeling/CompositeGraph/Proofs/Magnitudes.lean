/-
  MAGNITUDES of floats.

  A number that is read is a float of at most 64 binary places, times or over a power of ten.  The
  product is looked at, and refused if it is infinite.  The quotient is not: that it has digits is
  because what is divided is small and no power of ten is below one.

    1. ROUNDING.   `Below`: the digits of a float, and a bound on its binary exponent.  A result is
                   rounded to such a float, and packed and unpacked as one.
    2. FLOATS.     Products and quotients; natural numbers.
    3. READING.    Every number that is read has digits, or 64 bits.
-/
import CompositeGraph.Proofs.Texts

namespace CompositeGraph

open Float.Model
open Float.Model.UnpackedFloat (Sign ExtendedMantissa Accuracy shiftToTargetExponent unpackExponent
  unpackMantissa packComponents divCore)

/-! ## Rounding -/

/-- At most 53 binary digits and an exponent of at most `n`. -/
inductive Below (n : Int) : UnpackedFloat → Prop
  | zero (s : Sign) : Below n (.zero s)
  | finite (s : Sign) {m : Nat} {e : Int} (hm : 0 < m) (hdigits : m < 2 ^ 53) (hexponent : e ≤ n) :
      Below n (.finite s m e hm)

namespace Below

variable {n n' t : Int} {u v : UnpackedFloat}

theorem mono (h : Below n u) (hn : n ≤ n') : Below n' u := by
  cases h with
  | zero s => exact .zero s
  | finite s hm hdigits hexponent => exact .finite s hm hdigits (Int.le_trans hexponent hn)

theorem isFinite (h : Below n u) : u.isFinite = true := by cases h <;> rfl

theorem targetExponent_eq (total : Int) :
    Format.binary64.targetExponent total = max (total - 53) (-1074) := rfl

/-- A shift to the exponent that a number should have leaves 53 digits. -/
theorem shift_lt (m : Nat) (e : Int) :
    m / 2 ^ (Format.binary64.targetExponent (totalExponent m e) - e).toNat < 2 ^ 53 := by
  rw [Nat.div_lt_iff_lt_mul (Nat.two_pow_pos _), ← Nat.pow_add]
  refine Nat.lt_of_lt_of_le Nat.lt_log2_self (Nat.pow_le_pow_right (by decide) ?_)
  rw [targetExponent_eq, totalExponent]
  omega

theorem mantissa_shiftRight (em : ExtendedMantissa) (k : Nat) :
    (em >>> k).mantissa = em.mantissa / 2 ^ k := by
  induction k with
  | zero => exact (Nat.div_one _).symm
  | succ k ih =>
    change (em >>> k).mantissa / 2 = _
    rw [ih, Nat.div_div_eq_div_mul, Nat.pow_succ]

theorem mantissa_ofMantissaAndAccuracy (m : Nat) (accuracy : Accuracy) :
    (ExtendedMantissa.ofMantissaAndAccuracy m accuracy).mantissa = m := by
  cases accuracy with
  | exact => rfl
  | inexact ordering => cases ordering <;> rfl

theorem roundToNearestEven_le (m : Nat) (accuracy : Accuracy) :
    accuracy.roundToNearestEven m ≤ m + 1 := by
  cases accuracy with
  | exact => exact Nat.le_succ m
  | inexact ordering =>
    cases ordering with
    | lt => exact Nat.le_succ m
    | eq => exact Nat.add_le_add_left (Nat.le_of_lt_succ (Nat.mod_lt m Nat.two_pos)) m
    | gt => exact Nat.le_refl _

theorem log2_lt {m k : Nat} (hm : m < 2 ^ (k + 1)) : m.log2 < k + 1 := by
  by_cases hzero : m = 0
  · rw [hzero, Nat.log2_zero]
    exact Nat.succ_pos k
  · exact (Nat.log2_lt hzero).mpr hm

/-- The digits and the exponent after a shift. -/
theorem shiftToTargetExponent_spec (m : Nat) (e : Int) (accuracy : Accuracy) :
    (shiftToTargetExponent .binary64 m e accuracy).1.mantissa < 2 ^ 53 ∧
      (shiftToTargetExponent .binary64 m e accuracy).2 =
        max e (max (totalExponent m e - 53) (-1074)) := by
  refine ⟨?_, ?_⟩
  · change (_ >>> _ : ExtendedMantissa).mantissa < _
    rw [mantissa_shiftRight, mantissa_ofMantissaAndAccuracy]
    exact shift_lt m e
  · change e + ((Format.binary64.targetExponent (totalExponent m e) - e).toNat : Int) = _
    rw [targetExponent_eq]
    omega

/-- A number below `2 ^ t` is rounded to one with an exponent that has 52 places less. -/
theorem roundWithAccuracy {m : Nat} {e : Int} (s : Sign) (accuracy : Accuracy)
    (ht : -1021 ≤ t) (htotal : totalExponent m e ≤ t) (he : e ≤ t - 53) :
    Below (t - 52) (UnpackedFloat.roundWithAccuracy .binary64 s m e accuracy) := by
  let first := shiftToTargetExponent .binary64 m e accuracy
  let last := shiftToTargetExponent .binary64 first.1.roundedMantissa first.2 .exact
  have hround : UnpackedFloat.roundWithAccuracy .binary64 s m e accuracy =
      if h : last.1.mantissa = 0 then .zero s else
      .finite s last.1.mantissa last.2 (Nat.pos_of_ne_zero h) := rfl
  obtain ⟨hdigits, hexponent⟩ : first.1.mantissa < 2 ^ 53 ∧ first.2 = _ :=
    shiftToTargetExponent_spec m e accuracy
  -- Rounding up can give one digit more, which the second shift takes away again.
  have hrounded : first.1.roundedMantissa < 2 ^ (53 + 1) :=
    Nat.lt_of_le_of_lt (roundToNearestEven_le first.1.mantissa _) (by omega)
  have hlog := log2_lt hrounded
  obtain ⟨hdigits', hexponent'⟩ : last.1.mantissa < 2 ^ 53 ∧ last.2 = _ :=
    shiftToTargetExponent_spec _ first.2 .exact
  rw [totalExponent] at hexponent'
  rw [hround]
  by_cases hzero : last.1.mantissa = 0
  · rw [dif_pos hzero]
    exact .zero s
  · rw [dif_neg hzero]
    exact .finite s _ hdigits' (by omega)

/-- Unless all bits of the exponent are set, they say how large a float is. -/
theorem unpack {b : BitVec Format.binary64.numBits} (h : unpackExponent b ≠ -1#11) :
    Below (max ((unpackExponent b).toNat - 1075) (-1074)) (UnpackedFloat.unpack .binary64 b) := by
  by_cases hexponent : unpackExponent b = 0#11
  · by_cases hmantissa : unpackMantissa b = 0#52
    · have hunpack : UnpackedFloat.unpack .binary64 b = .zero _ :=
        (if_neg h).trans ((if_pos hexponent).trans (dif_pos hmantissa))
      rw [hunpack]
      exact .zero _
    · have hunpack : UnpackedFloat.unpack .binary64 b = .finite _ _ _ _ :=
        (if_neg h).trans ((if_pos hexponent).trans (dif_neg hmantissa))
      rw [hunpack]
      refine .finite _ _ (Nat.lt_of_lt_of_le (unpackMantissa b).isLt (by decide)) ?_
      rw [hexponent]
      decide
  · have hunpack : UnpackedFloat.unpack .binary64 b = .finite _ _ _ _ :=
      (if_neg h).trans (if_neg hexponent)
    rw [hunpack]
    exact .finite _ _ (BitVec.isLt _) (Int.le_max_left ..)

/-- A float with digits is below the range of floats. -/
theorem of_isFinite {b : BitVec Format.binary64.numBits}
    (h : (UnpackedFloat.unpack .binary64 b).isFinite = true) :
    Below 971 (UnpackedFloat.unpack .binary64 b) := by
  have hexponent : unpackExponent b ≠ -1#11 := by
    intro hall
    have hunpack : UnpackedFloat.unpack .binary64 b =
        if unpackMantissa b = 0#52 then .infinity _ else .notANumber := if_pos hall
    rw [hunpack] at h
    split at h <;> cases h
  have hlt : (unpackExponent b).toNat < 2048 := (unpackExponent b).isLt
  have hne : (unpackExponent b).toNat ≠ 2047 := fun heq => hexponent (BitVec.eq_of_toNat_eq heq)
  exact (unpack hexponent).mono (by omega)

/-- How a float with digits is packed: as infinite, with its first digit left out,
    or with all of them. -/
theorem pack_finite (s : Sign) (m : Nat) (e : Int) (hm : 0 < m) :
    UnpackedFloat.pack .binary64 (.finite s m e hm) =
      if 2 ^ 11 ≤ (e + (1023 : Nat) + (52 : Nat)).toNat + 1 then
        UnpackedFloat.packedInfinity .binary64 s
      else if m.log2 + 1 = 53 then packComponents .binary64 s
        (BitVec.ofNat 11 (e + (1023 : Nat) + (52 : Nat)).toNat) (BitVec.ofNat 52 m)
      else packComponents .binary64 s 0#11 (BitVec.ofNat 52 m) := rfl

/-- An exponent within the range of floats is packed and unpacked. -/
theorem unpack_pack (h : Below n u) (hlow : -1074 ≤ n) (hhigh : n ≤ 971) :
    Below n (UnpackedFloat.unpack .binary64 (u.pack .binary64)) := by
  have hcomponents : ∀ s mantissa (k : Nat), k < 2047 → (k : Int) - 1075 ≤ n → Below n
      (UnpackedFloat.unpack .binary64
        (packComponents .binary64 s (BitVec.ofNat 11 k) mantissa)) := by
    intro s mantissa k hk hle
    have hexponent : unpackExponent
        (packComponents .binary64 s (BitVec.ofNat 11 k) mantissa) = BitVec.ofNat 11 k :=
      UnpackedFloat.unpackExponent_packComponents
    have hfield : (BitVec.ofNat 11 k).toNat = k := by
      rw [BitVec.toNat_ofNat]
      omega
    refine (unpack ?_).mono ?_
    · rw [hexponent]
      intro hall
      rw [hall] at hfield
      have : (-1#11).toNat = 2047 := by decide
      omega
    · rw [hexponent, hfield]
      omega
  cases h with
  | zero s => exact hcomponents s 0 0 (by decide) (by omega)
  | @finite s m e hm hdigits hexponent =>
    rw [pack_finite, if_neg (by omega)]
    split
    · exact hcomponents s _ _ (by omega) (by omega)
    · exact hcomponents s _ 0 (by decide) (by omega)

/-- What is packed is infinite, or has digits. -/
theorem isFinite_unpack_pack (h : Below n u)
    (hinf : (UnpackedFloat.unpack .binary64 (u.pack .binary64)).isInf = false) :
    (UnpackedFloat.unpack .binary64 (u.pack .binary64)).isFinite = true := by
  cases h with
  | zero s => exact (unpack_pack (.zero s) (Int.le_refl (-1074)) (by decide)).isFinite
  | @finite s m e hm hdigits _ =>
    by_cases he : e ≤ 971
    · exact (unpack_pack (.finite s hm hdigits he) (by decide) (Int.le_refl 971)).isFinite
    · rw [pack_finite, if_pos (by omega)] at hinf
      cases s <;> cases hinf

/-- The exponents of the factors and the digits of both. -/
theorem mul (hu : Below n u) (hv : Below n' v) (hlow : -1127 ≤ n + n') :
    Below (n + n' + 54) (UnpackedFloat.mul .binary64 u v) := by
  cases hu with
  | zero s =>
    cases hv with
    | zero s' => exact .zero _
    | finite s' _ _ _ => exact .zero _
  | @finite s m e hm hdigits hexponent =>
    cases hv with
    | zero s' => exact .zero _
    | @finite s' m' e' hm' hdigits' hexponent' =>
      have hproduct : m * m' < 2 ^ (105 + 1) :=
        Nat.lt_of_lt_of_le (Nat.mul_lt_mul'' hdigits hdigits') (by decide)
      have hlog := log2_lt hproduct
      have hround : Below (n + n' + 106 - 52)
          (UnpackedFloat.roundWithAccuracy .binary64 (s * s') (m * m') (e + e') .exact) :=
        roundWithAccuracy _ _ (by omega) (by rw [totalExponent]; omega) (by omega)
      exact hround.mono (by omega)

/-- A float that is at least one, but for its sign. -/
def reachesOne : UnpackedFloat → Bool
  | .finite _ m e _ => decide (0 ≤ (m.log2 : Int) + e)
  | _ => false

/-- The digits of a quotient, as many as are asked for. -/
theorem log2_shiftLeft_div_le {m m' k : Nat} (hm' : 0 < m') (hpositive : 0 < m <<< k / m') :
    (m <<< k / m').log2 + m'.log2 ≤ m.log2 + k := by
  have hquotient := Nat.log2_self_le (Nat.ne_of_gt hpositive)
  have hdivisor := Nat.log2_self_le (Nat.ne_of_gt hm')
  have hlt : 2 ^ ((m <<< k / m').log2 + m'.log2) < 2 ^ (m.log2 + 1 + k) := by
    calc 2 ^ ((m <<< k / m').log2 + m'.log2)
        = 2 ^ (m <<< k / m').log2 * 2 ^ m'.log2 := Nat.pow_add ..
      _ ≤ m <<< k / m' * m' := Nat.mul_le_mul hquotient hdivisor
      _ ≤ m <<< k := Nat.div_mul_le_self ..
      _ = m * 2 ^ k := Nat.shiftLeft_eq ..
      _ < 2 ^ (m.log2 + 1) * 2 ^ k :=
      Nat.mul_lt_mul_of_pos_right Nat.lt_log2_self (Nat.two_pow_pos k)
      _ = 2 ^ (m.log2 + 1 + k) := (Nat.pow_add ..).symm
  have := (Nat.pow_lt_pow_iff_right (by decide)).mp hlt
  omega

theorem divCore_le {m m' : Nat} {e e' : Int} (hm' : 0 < m') (hdigits : m < 2 ^ 53) (he : e ≤ n)
    (hone : 0 ≤ (m'.log2 : Int) + e') (hlow : -1074 ≤ n) :
    totalExponent (divCore .binary64 m e m' e').1 (divCore .binary64 m e m' e').2.1 ≤
        n + 53 ∧ (divCore .binary64 m e m' e').2.1 ≤ n := by
  have hlog := log2_lt hdigits
  change totalExponent (m <<< (e - e' - _).toNat / m') (min (e - e') _) ≤ n + 53 ∧
    min (e - e') _ ≤ n
  have htarget : Format.binary64.targetExponent (totalExponent m e - totalExponent m' e') ≤ n := by
    rw [targetExponent_eq, totalExponent, totalExponent]
    omega
  generalize Format.binary64.targetExponent (totalExponent m e - totalExponent m' e') =
    target at htarget ⊢
  refine ⟨?_, Int.le_trans (Int.min_le_right ..) htarget⟩
  rw [totalExponent]
  by_cases hpositive : 0 < m <<< (e - e' - min (e - e') target).toNat / m'
  · have := log2_shiftLeft_div_le hm' hpositive
    omega
  · rw [Nat.eq_zero_of_not_pos hpositive, Nat.log2_zero]
    omega

/-- A quotient by at least one is hardly larger. -/
theorem div (hu : Below n u) (hv : reachesOne v = true) (hlow : -1074 ≤ n) :
    Below (n + 1) (UnpackedFloat.div .binary64 u v) := by
  cases v with
  | notANumber => cases hv
  | infinity _ => cases hv
  | zero _ => cases hv
  | finite s' m' e' hm' =>
    cases hu with
    | zero s => exact .zero _
    | @finite s m e hm hdigits hexponent =>
      obtain ⟨htotal, hle⟩ := divCore_le hm' hdigits hexponent (of_decide_eq_true hv) hlow
      have hround : Below (n + 53 - 52)
        (UnpackedFloat.div .binary64 (.finite s m e hm) (.finite s' m' e' hm')) :=
        roundWithAccuracy _ _ (by omega) htotal (Int.le_trans hle (by omega))
      exact hround.mono (by omega)

theorem neg (hu : Below n u) : Below n u.neg := by
  cases hu with
  | zero s => exact .zero _
  | finite s hm hdigits hexponent => exact .finite _ hm hdigits hexponent

theorem log2_shiftLeft_lt {m d : Nat} (k : Nat) (hm : m < 2 ^ (d + 1)) :
    (m <<< k).log2 < d + k + 1 := by
  refine log2_lt ?_
  rw [Nat.shiftLeft_eq, Nat.add_right_comm, Nat.pow_add]
  exact Nat.mul_lt_mul_of_pos_right hm (Nat.two_pow_pos k)

/-- A natural number is rounded to a float. -/
theorem round {m : Nat} (s : Sign) (hm : m < 2 ^ 53) :
    Below 1 (UnpackedFloat.round .binary64 s m 0) := by
  rw [UnpackedFloat.round, UnpackedFloat.decreaseExponent]
  dsimp only
  generalize (0 - Format.binary64.targetExponent (totalExponent m 0)).toNat = k
  have hlog := log2_shiftLeft_lt (d := 52) k hm
  have hround :
    Below (53 - 52) (UnpackedFloat.roundWithAccuracy .binary64 s (m <<< k) (0 - k) .exact) :=
    roundWithAccuracy _ _ (by decide) (by rw [totalExponent]; omega) (by omega)
  exact hround

theorem ofNat {m : Nat} (hm : m < 2 ^ 53) : Below 1 (UnpackedFloat.ofNat .binary64 m) := by
  rw [UnpackedFloat.ofNat, UnpackedFloat.ofInt, UnpackedFloat.normalize]
  split
  · exact round _ (by omega)
  · exact .zero _
  · exact round _ (by omega)

theorem ofScientific {m : Nat} (hm : m < 2 ^ 64) :
    Below 12 (UnpackedFloat.ofScientific .binary64 m 0) := by
  by_cases hzero : m = 0
  · have hvalue : UnpackedFloat.ofScientific .binary64 m 0 = .zero .positive := dif_pos hzero
    rw [hvalue]
    exact .zero _
  · have hrange : ¬ (0 : Int) < -(2 ^ 11 + m.log2) := by omega
    have hvalue : UnpackedFloat.ofScientific .binary64 m 0 =
      UnpackedFloat.roundWithAccuracy .binary64
        (.positive * .positive) (m <<< 53 * 10 ^ (0 : Int).toNat) (-(53 : Nat) + 0) .exact :=
      (dif_neg hzero).trans
      ((if_neg (by decide)).trans ((if_neg hrange).trans (if_pos (Int.le_refl 0))))
    have hlog := log2_shiftLeft_lt (d := 63) 53 hm
    have htotal : ((m <<< 53 * 1).log2 : Int) + 1 + -53 ≤ 64 := by
      rw [Nat.mul_one]
      omega
    rw [hvalue]
    exact roundWithAccuracy (t := 64) _ _ (by decide) htotal (by decide)

end Below

/-! ## Floats -/

variable {x y : Float} {n : Int}

theorem below_of_isFinite (h : x.isFinite = true) : Below 971 x.toModel.unpack :=
  Below.of_isFinite h

theorem isFinite_neg (h : x.isFinite = true) : (-x).isFinite = true :=
  ((below_of_isFinite h).neg.unpack_pack (by decide) (Int.le_refl _)).isFinite

theorem isFinite_mul (hx : x.isFinite = true) (hy : y.isFinite = true)
    (hinf : (x * y).isInf = false) : (x * y).isFinite = true :=
  ((below_of_isFinite hx).mul (below_of_isFinite hy) (by decide)).isFinite_unpack_pack hinf

theorem below_div (hx : Below n x.toModel.unpack) (hy : Below.reachesOne y.toModel.unpack = true)
    (hlow : -1074 ≤ n) (hhigh : n ≤ 970) : Below (n + 1) (x / y).toModel.unpack :=
  (hx.div hy hlow).unpack_pack (by omega) (by omega)

/-- One, as a power of ten. -/
theorem below_one : Below (-52) (Float.exactlyRepresentablePowersOfTen[0]).toModel.unpack := by
  have hexponent : @UnpackedFloat.unpackExponent .binary64
      (Float.exactlyRepresentablePowersOfTen[0]).toModel.toBits.toBitVec =
      1023#11 := by decide +kernel
  refine Below.mono (Below.unpack (by rw [hexponent]; decide)) ?_
  rw [hexponent]
  decide

/-- A natural number of 64 bits is a float. -/
theorem below_ofNat {k : Nat} (hk : k < 2 ^ 64) : Below 12 (Float.ofNat k).toModel.unpack := by
  change Below 12 (Float.ofScientific k false 0).toModel.unpack
  rw [Float.ofScientific]
  split
  · next h =>
    have hsame : k.toUInt64.toNat = k := Nat.mod_eq_of_lt hk
    have hfactor : Below 1 k.toUInt64.toFloat.toModel.unpack := by
      refine Below.unpack_pack ?_ (by decide) (by decide)
      change Below 1 (UnpackedFloat.ofNat .binary64 k.toUInt64.toNat)
      rw [hsame]
      exact Below.ofNat h.1
    exact Below.mono ((hfactor.mul below_one (by decide)).unpack_pack (by decide) (by decide))
      (by decide)
  · exact (Below.ofScientific hk).unpack_pack (by decide) (by decide)

/-! ## Reading -/

/-- Integers have 64 bits and a sign, and floats have digits, down to the leaves of a draft. -/
inductive Draft.Bounded : Draft → Prop
  | null : Bounded .null
  | bool (value : Bool) : Bounded (.bool value)
  | int {value : Int} (h : value.natAbs < 2 ^ 64) : Bounded (.int value)
  | float {value : Float} (h : value.isFinite = true) : Bounded (.float value)
  | text (value : String) : Bounded (.text value)
  | list {items : List Draft} (fault : Option Fault) (h : ∀ item ∈ items, Bounded item) :
      Bounded (.list items fault)
  | object {fields : List (String × Draft)} (fault : Option Fault)
      (h : ∀ field ∈ fields, Bounded field.2) : Bounded (.object fields fault)
  | unusable : Bounded .unusable
  | broken (fault : Fault) : Bounded (.broken fault)

namespace Reading

open Draft (Bounded)

theorem reachesOne_tenTo : ∀ k < 309,
    Below.reachesOne (tenTo k).toModel.unpack = true := by decide +kernel

theorem isFinite_tenTo {k : Nat} (hk : k < 309) : (tenTo k).isFinite = true := by
  have hone := reachesOne_tenTo k hk
  change (tenTo k).toModel.unpack.isFinite = true
  cases hunpack : (tenTo k).toModel.unpack with
  | finite _ _ _ _ => rfl
  | _ =>
    rw [hunpack] at hone
    cases hone

/-- What is scaled has digits.  Each division may add one to the bound on the exponent. -/
theorem isFinite_of_scaled {fuel : Nat} {value : Float} {power n : Int} {x : Float}
    (h : scaled fuel value power = some x) (hvalue : Below n value.toModel.unpack)
    (hlow : -1074 ≤ n) (hhigh : n + fuel ≤ 971) : x.isFinite = true := by
  induction fuel generalizing value power n with
  | zero =>
    cases h
    exact hvalue.isFinite
  | succ fuel ih =>
    rw [scaled] at h
    dsimp only at h
    split at h
    · next hpower =>
      split at h
      · split at h
        · cases h
        · next hinf =>
          cases h
          exact isFinite_mul hvalue.isFinite (isFinite_tenTo (by omega))
            (Bool.eq_false_iff.mpr hinf)
      · cases h
        exact (below_div hvalue (reachesOne_tenTo _ (by omega)) hlow (by omega)).isFinite
    · split at h
      · cases h
        exact hvalue.isFinite
      · split at h
        · cases h
        · exact ih h (below_div hvalue (reachesOne_tenTo _ (by decide)) hlow (by omega))
            (by omega) (by omega)

variable {significand : Nat} {text : List Char}

theorem isFinite_of_floatOf {power : Int} {x : Float} (hs : significand ≤ wordLimit)
    (h : floatOf significand power = some x) : x.isFinite = true :=
  isFinite_of_scaled h (below_ofNat (Nat.lt_succ_of_le hs)) (by decide) (by decide)

theorem isFinite_withSign {x : Float} (negative : Bool) (h : x.isFinite = true) :
    (Decimal.withSign negative x).isFinite = true := by
  cases negative with
  | false => exact h
  | true => exact isFinite_neg h

theorem bounded_numberDraft {value : Option Float} (negative : Bool)
    (h : ∀ x, value = some x → x.isFinite = true) : (numberDraft negative value).Bounded := by
  cases value with
  | none => exact .unusable
  | some x => exact .float (isFinite_withSign negative (h x rfl))

theorem bounded_exponent (negative : Bool) (power : Int) (text : List Char)
    (hs : significand ≤ wordLimit) : (exponent negative significand power text).draft.Bounded := by
  rw [exponent]
  dsimp only
  split
  · exact .broken _
  · split
    · exact .broken _
    · refine bounded_numberDraft negative fun x hx => ?_
      split at hx
      · split at hx
        · cases hx
        · cases hx
          decide +kernel
      · exact isFinite_of_floatOf hs hx

theorem bounded_afterDigits (negative : Bool) (power : Int) (text : List Char)
    (hs : significand ≤ wordLimit) :
    (afterDigits negative significand power text).draft.Bounded := by
  unfold afterDigits
  split
  · exact bounded_exponent negative power _ hs
  · exact bounded_exponent negative power _ hs
  · exact bounded_numberDraft negative fun x hx => isFinite_of_floatOf hs hx

theorem takeDigits_le (digits : List Char) (hs : significand ≤ wordLimit) :
    (takeDigits significand digits).1 ≤ wordLimit := by
  induction digits generalizing significand with
  | nil => exact hs
  | cons d rest ih =>
    rw [takeDigits]
    dsimp only
    split
    · exact hs
    · exact ih (by omega)

theorem bounded_fraction (negative : Bool) (power : Int) (text : List Char)
    (hs : significand ≤ wordLimit) : (fraction negative significand power text).draft.Bounded := by
  rw [fraction]
  dsimp only
  split
  · exact .broken _
  · exact bounded_afterDigits negative _ _ (takeDigits_le _ hs)

theorem bounded_afterWhole (negative : Bool) (dropped : Nat) (text : List Char)
    (hs : significand ≤ wordLimit) :
    (afterWhole negative significand dropped text).draft.Bounded := by
  have hlt : significand < 2 ^ 64 := Nat.lt_succ_of_le hs
  unfold afterWhole
  split
  · exact bounded_fraction negative _ _ hs
  · split
    · split
      · exact .int (by omega)
      · split
        · exact .int (by omega)
        · exact .float (isFinite_neg (below_ofNat hlt).isFinite)
    · exact bounded_afterDigits negative _ _ hs

theorem bounded_number (negative : Bool) (text : List Char) :
    (number negative text).draft.Bounded := by
  rw [number]
  dsimp only
  split
  · exact .broken _
  · exact .broken _
  · exact bounded_afterWhole negative _ _ (takeDigits_le _ (Nat.zero_le _))

theorem bounded_word {value : Draft} (h : value.Bounded) (expected text : List Char) :
    (word value expected text).draft.Bounded := by
  induction expected generalizing text with
  | nil => exact h
  | cons e expected ih =>
    cases text with
    | nil => exact .broken _
    | cons c text =>
      rw [word]
      split
      · exact ih text
      · exact .broken _

theorem forall_mem_reverse_cons {α : Type} {P : α → Prop} {a : α} {read : List α} (ha : P a)
    (hread : ∀ b ∈ read, P b) : ∀ b ∈ (a :: read).reverse, P b :=
  fun b hb => List.forall_mem_cons.mpr ⟨ha, hread⟩ b (List.mem_reverse.mp hb)

theorem bounded_of_value {fuel : Nat} (hvalue : ∀ text, (value fuel text).draft.Bounded)
    {text : List Char}
    {draft : Draft} {rest : Option (List Char)} (h : value fuel text = ⟨draft, rest⟩) :
      draft.Bounded := by
  have := hvalue text
  rwa [h] at this

/-- The items of a list, if the values that it is read with are bounded and the list is read on. -/
theorem bounded_items {fuel : Nat} (hvalue : ∀ text, (value fuel text).draft.Bounded)
    (hitems : ∀ first text read, (∀ item ∈ read, Bounded item) →
      (items fuel first text read).draft.Bounded)
    (first : Bool) (text : List Char) {read : List Draft} (hread : ∀ item ∈ read, Bounded item) :
    (items (fuel + 1) first text read).draft.Bounded := by
  have hstop (fault : Option Fault) : (Draft.list read.reverse fault).Bounded :=
    .list fault fun item hitem => hread item (List.mem_reverse.mp hitem)
  have hlast {text : List Char} {draft : Draft} (h : value fuel text = ⟨draft, none⟩) :
      (Draft.list (draft :: read).reverse none).Bounded :=
    .list none (forall_mem_reverse_cons (bounded_of_value hvalue h) hread)
  have hnext {text rest : List Char} {draft : Draft} (h : value fuel text = ⟨draft, some rest⟩) :
      (items fuel false rest (draft :: read)).draft.Bounded :=
    hitems false rest _ (List.forall_mem_cons.mpr ⟨bounded_of_value hvalue h, hread⟩)
  rw [items]
  dsimp only
  split
  · exact hstop _
  · exact hstop none
  · split
    · split
      · next h => exact hlast h
      · next h => exact hnext h
    · split
      · split
        · exact hstop _
        · exact hstop _
        · split
          · next h => exact hlast h
          · next h => exact hnext h
      · exact hstop _

/-- The fields of an object, likewise. -/
theorem bounded_fields {fuel : Nat} (hvalue : ∀ text, (value fuel text).draft.Bounded)
    (hfields : ∀ first text read, (∀ field ∈ read, Bounded field.2) →
      (fields fuel first text read).draft.Bounded)
    (first : Bool) (text : List Char) {read : List (String × Draft)}
    (hread : ∀ field ∈ read, Bounded field.2) :
    (fields (fuel + 1) first text read).draft.Bounded := by
  have hstop (fault : Option Fault) : (Draft.object read.reverse fault).Bounded :=
    .object fault fun field hfield => hread field (List.mem_reverse.mp hfield)
  have hbad (name : String) {draft : Draft} (h : draft.Bounded) :
      (Draft.object ((name, draft) :: read).reverse none).Bounded :=
    .object none
      (forall_mem_reverse_cons (P := fun field : String × Draft => field.2.Bounded) h hread)
  have hnext (name : String) {text rest : List Char} {draft : Draft}
    (h : value fuel text = ⟨draft, some rest⟩) :
      (fields fuel false rest ((name, draft) :: read)).draft.Bounded :=
    hfields false rest _ (List.forall_mem_cons.mpr ⟨bounded_of_value hvalue h, hread⟩)
  rw [fields]
  dsimp only
  split
  · exact hstop _
  · exact hstop none
  · split
    · split
      · exact hstop _
      · exact hstop _
      · split
        · exact hbad _ (.broken _)
        · split
          · next h => exact hbad _ (bounded_of_value hvalue h)
          · next h => exact hnext _ h
        · exact hbad _ (.broken _)
    · exact hstop _
  · split
    · exact hstop _
    · split
      · exact hstop _
      · split
        · exact hstop _
        · exact hstop _
        · split
          · exact hbad _ (.broken _)
          · split
            · next h => exact hbad _ (bounded_of_value hvalue h)
            · next h => exact hnext _ h
          · exact hbad _ (.broken _)
      · exact hstop _
  · exact hstop _

/-- Whatever the text, numbers are read with 64 bits or with digits. -/
theorem bounded_all (fuel : Nat) : (∀ text, (value fuel text).draft.Bounded) ∧
    (∀ first text read, (∀ item ∈ read, Bounded item) →
      (items fuel first text read).draft.Bounded) ∧
    ∀ first text read, (∀ field ∈ read, Bounded field.2) →
      (fields fuel first text read).draft.Bounded := by
  induction fuel with
  | zero => exact ⟨fun _ => .broken _, fun _ _ _ _ => .broken _, fun _ _ _ _ => .broken _⟩
  | succ fuel ih =>
    obtain ⟨hvalue, hitems, hfields⟩ := ih
    refine ⟨fun text => ?_, fun first text read => bounded_items hvalue hitems first text,
      fun first text read => bounded_fields hvalue hfields first text⟩
    have hnone {α : Type} {P : α → Prop} : ∀ a ∈ ([] : List α), P a :=
      fun _ h => absurd h List.not_mem_nil
    rw [value]
    split
    · exact .broken _
    · exact bounded_word .null _ _
    · exact bounded_word (.bool true) _ _
    · exact bounded_word (.bool false) _ _
    · split
      · exact .broken _
      · exact .text _
      · exact .unusable
    · exact hitems _ _ _ hnone
    · exact hfields _ _ _ hnone
    · exact bounded_number true _
    · split
      · exact bounded_number false _
      · exact .broken _

end Reading

/-- A text is read with bounded numbers. -/
theorem Document.bounded_read (text : String) : (Document.read text).draft.Bounded := by
  have hvalue := (Reading.bounded_all (text.toList.length + 1)).1 text.toList
  rw [Document.read]
  split <;> next h => rwa [h] at hvalue

end CompositeGraph
