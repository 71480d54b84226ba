import Quill.Json.Basic
import Quill.Number.Literal

/-!
# Numbers of JSON texts

The strict grammar of JSON numbers and their values.  Integers of 64 bits are integers.  Every
other number is a double, made from its leading digits as far as they fit 64 bits and one or
two scalings by a power of ten, each of them rounded; this can differ from the double nearest
to the text in the last bit.
-/

namespace Quill.Json

/-- The greatest unsigned 64-bit integer, `2 ^ 64 - 1`. -/
def maxSignificand : Nat := 0xffffffffffffffff

/-- Append digits to a significand until it would leave 64 bits; also how many digits were
appended. -/
def appendDigits (significand : Nat) : List Char → Nat × Nat
  | [] => (significand, 0)
  | c :: rest =>
      let next := significand * 10 + Decimal.digitValue c
      if maxSignificand < next then (significand, 0)
      else
        let (s, n) := appendDigits next rest
        (s, n + 1)

/-- A power of ten up to `10 ^ 308` as a double. -/
def powerOfTen (e : Nat) : Binary64 :=
  Binary64.ofQuotient false (Nat.pow 10 e) 1

/-- The double `significand · 10 ^ e`: the significand is rounded first, then the product or
the quotient with a power of ten.  There is none beyond the range of the doubles. -/
def scaled? (significand : Nat) (e : Int) : Option Binary64 :=
  let f := Binary64.ofNat significand
  if significand = 0 then some f
  else if 308 < e then none
  else if 0 ≤ e then
    let x := f.mul (powerOfTen e.toNat)
    if x.isFinite then some x else none
  else if -308 ≤ e then some (f.div (powerOfTen (-e).toNat))
  else if -616 ≤ e then some ((f.div (powerOfTen 308)).div (powerOfTen (-e - 308).toNat))
  else some (Binary64.zero false)

/-- The greatest exponent that is read, `2 ^ 31 - 1`; anything above counts as out of range. -/
def maxExponent : Nat := 0x7fffffff

/-- The double of a significand, an exponent and the exponent that the text gives. -/
def float? (negative : Bool) (significand : Nat) (e : Int) (written : Int) : Option Json :=
  let magnitude :=
    if (maxExponent : Int) < written.natAbs then
      if significand ≠ 0 ∧ 0 < written then none else some (Binary64.zero false)
    else scaled? significand (e + written)
  magnitude.map fun x => .float (if negative then x.neg else x)

/-- The value of an integer without sign, fraction and exponent. -/
def integer? (negative : Bool) (ds : List Char) : Option Json :=
  let n := Decimal.value ds
  let wide := Binary64.ofNat n
  if n ≤ maxSignificand then
    let signed : Int := if negative then -n else n
    match Decimal.word? signed with
    | some i => if negative && n == 0 then some (.float wide.neg) else some (.int i)
    | none => some (.float (if negative then wide.neg else wide))
  else
    let (significand, used) := appendDigits 0 ds
    float? negative significand (ds.length - used) 0

/-- Read an exponent part: an optional sign and digits behind the mark. -/
def exponentPart? : List Char → Option Int
  | [] => some 0
  | c :: rest => if c = 'e' ∨ c = 'E' then Binary64.exponent? (c :: rest) else none

/-- Read a number that fills the whole text. -/
def number? (s : List Char) : Option Json :=
  let (negative, s) := match s with
    | '-' :: rest => (true, rest)
    | _ => (false, s)
  let (whole, rest) := s.span Char.isDigit
  if !Decimal.isCanonical whole then none
  else
    match rest with
    | [] => integer? negative whole
    | '.' :: more =>
        let (fraction, more) := more.span Char.isDigit
        if fraction.isEmpty then none
        else
          let (significand, used) := appendDigits 0 whole
          let (significand, usedAfter) := appendDigits significand fraction
          (exponentPart? more).bind
            (float? negative significand ((whole.length : Int) - used - usedAfter) ·)
    | _ =>
        let (significand, used) := appendDigits 0 whole
        (exponentPart? rest).bind (float? negative significand ((whole.length : Int) - used) ·)

end Quill.Json
