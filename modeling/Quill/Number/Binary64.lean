/-!
# Double-precision numbers

A double is its sixty-four bits, so that equality of doubles is equality of bits and every
operation is exact arithmetic on naturals followed by one rounding.
-/

namespace Quill

/-- A double-precision number, given by its bits in the interchange format. -/
structure Binary64 where
  bits : UInt64
deriving DecidableEq

namespace Binary64

/-- The number of values of the fraction field, `2 ^ 52`. -/
def fractionCount : Nat := 0x10000000000000

/-- The weight of the sign bit, `2 ^ 63`. -/
def signWeight : Nat := 0x8000000000000000

/-- The eleven bits of the exponent field. -/
def exponentField (x : Binary64) : Nat :=
  x.bits.toNat / fractionCount % 2048

/-- The fifty-two bits of the fraction field. -/
def fractionField (x : Binary64) : Nat :=
  x.bits.toNat % fractionCount

/-- Whether the sign bit is set. -/
def isNegative (x : Binary64) : Bool :=
  signWeight ≤ x.bits.toNat

def isFinite (x : Binary64) : Bool :=
  x.exponentField != 2047

def isNaN (x : Binary64) : Bool :=
  x.exponentField == 2047 && x.fractionField != 0

def isZero (x : Binary64) : Bool :=
  x.exponentField == 0 && x.fractionField == 0

/-- The integer significand of a finite double. -/
def significand (x : Binary64) : Nat :=
  if x.exponentField = 0 then x.fractionField else fractionCount + x.fractionField

/-- The power of two that scales the significand of a finite double, plus 1074. -/
def scale (x : Binary64) : Nat :=
  x.exponentField - 1

/-- The double with the given sign and magnitude bits. -/
def ofMagnitudeBits (negative : Bool) (magnitude : Nat) : Binary64 :=
  ⟨UInt64.ofNat (if negative then signWeight + magnitude else magnitude)⟩

/-- The magnitude bits of infinity. -/
def infinityBits : Nat := 2047 * fractionCount

/-- The double with the bits of a quiet not-a-number and sign plus. -/
def nan : Binary64 := ofMagnitudeBits false (infinityBits + fractionCount / 2)

/-- The infinity of the given sign. -/
def infinity (negative : Bool) : Binary64 := ofMagnitudeBits negative infinityBits

/-- The zero of the given sign. -/
def zero (negative : Bool) : Binary64 := ofMagnitudeBits negative 0

/-- The natural number nearest to `num / den`; of two nearest ones the even one. -/
def roundHalfEven (num den : Nat) : Nat :=
  let q := num / den
  let r := num % den
  if 2 * r < den then q else if den < 2 * r then q + 1 else q + q % 2

/-- The magnitude bits of the double nearest to `num / den`, ties to even.  The scale is the
greatest power of two that leaves at least fifty-three bits before the point, but no less than
the scale of the subnormal numbers; a carry out of the significand raises the exponent field. -/
def nearestBits (num den : Nat) : Nat :=
  let estimate : Int := (num.log2 : Int) - den.log2
  let below : Bool :=
    if 0 ≤ estimate then num < den <<< estimate.toNat
    else num <<< (-estimate).toNat < den
  let binade : Int := if below then estimate - 1 else estimate
  let scale : Int := max (binade - 52) (-1074)
  let m :=
    if 0 ≤ scale then roundHalfEven num (den <<< scale.toNat)
    else roundHalfEven (num <<< (-scale).toNat) den
  min ((scale + 1074).toNat * fractionCount + m) infinityBits

/-- The double nearest to `± num / den`. -/
def ofQuotient (negative : Bool) (num den : Nat) : Binary64 :=
  if num = 0 then zero negative else ofMagnitudeBits negative (nearestBits num den)

/-- The double nearest to a natural number. -/
def ofNat (n : Nat) : Binary64 := ofQuotient false n 1

/-- The double nearest to `± m · 10 ^ e`.  Magnitudes far outside the range of doubles are
decided by the number of digits alone. -/
def ofDecimal (negative : Bool) (m : Nat) (e : Int) : Binary64 :=
  let magnitude : Int := (m.log2 : Int) * 30103 / 100000 + e
  if m = 0 then zero negative
  else if 400 < magnitude then infinity negative
  else if magnitude < -400 then zero negative
  else if 0 ≤ e then ofQuotient negative (m * Nat.pow 10 e.toNat) 1
  else ofQuotient negative m (Nat.pow 10 (-e).toNat)

/-- The magnitude of a finite double as a fraction. -/
def magnitude (x : Binary64) : Nat × Nat :=
  if 1074 ≤ x.scale then (x.significand <<< (x.scale - 1074), 1)
  else (x.significand, 1 <<< (1074 - x.scale))

/-- The opposite number. -/
def neg (x : Binary64) : Binary64 :=
  ⟨x.bits ^^^ (UInt64.ofNat signWeight)⟩

/-- The product of two finite doubles, rounded. -/
def mul (x y : Binary64) : Binary64 :=
  ofQuotient (x.isNegative != y.isNegative)
    (x.magnitude.1 * y.magnitude.1) (x.magnitude.2 * y.magnitude.2)

/-- The quotient of two finite doubles, the divisor not zero, rounded. -/
def div (x y : Binary64) : Binary64 :=
  ofQuotient (x.isNegative != y.isNegative)
    (x.magnitude.1 * y.magnitude.2) (x.magnitude.2 * y.magnitude.1)

/-- A finite double without its fraction, as a 64-bit integer; magnitudes beyond the range
of the integers give its nearer end. -/
def truncate (x : Binary64) : Int64 :=
  let whole := x.magnitude.1 / x.magnitude.2
  let signed : Int := if x.isNegative then -(whole : Int) else whole
  Int64.ofInt (max Int64.minValue.toInt (min signed Int64.maxValue.toInt))

end Binary64

end Quill
