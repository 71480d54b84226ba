import Quill.Number.Decimal
import Quill.Number.Shortest

/-!
# Texts of doubles

A layout says how the shortest decimal of a double is written down: where positional notation
ends, whether whole numbers keep a fraction, and how an exponent is marked.
-/

namespace Quill

/-- How a double is written. -/
structure FloatLayout where
  /-- The least and the greatest decimal exponent written positionally, if there are bounds. -/
  positional : Option (Int × Int)
  /-- Whether whole numbers are written with `.0`. -/
  pointZero : Bool
  /-- The sign in front of a positive exponent. -/
  plus : List Char
  /-- The text of the positive infinity. -/
  infinity : List Char
  /-- The text of not-a-number. -/
  nan : List Char

namespace FloatLayout

/-- Plain text: never an exponent, never a fraction of zero. -/
def plain : FloatLayout :=
  { positional := none, pointZero := false, plus := [],
    infinity := "inf".toList, nan := "NaN".toList }

/-- Numbers of JSON texts: positional for exponents from -5 to 15, signed exponents. -/
def json : FloatLayout :=
  { positional := some (-5, 15), pointZero := true, plus := ['+'],
    infinity := "null".toList, nan := "null".toList }

/-- Numbers of YAML texts: positional for exponents from -5 to 15. -/
def yaml : FloatLayout :=
  { positional := some (-5, 15), pointZero := true, plus := [],
    infinity := ".inf".toList, nan := ".nan".toList }

/-- Digits with a decimal point after the first `point` of them; zeros fill the gaps. -/
def positionalText (layout : FloatLayout) (ds : List Char) (point : Int) : List Char :=
  let n : Int := ds.length
  if point ≤ 0 then
    '0' :: '.' :: List.replicate (-point).toNat '0' ++ ds
  else if n ≤ point then
    ds ++ List.replicate (point - n).toNat '0' ++
      (if layout.pointZero then ['.', '0'] else [])
  else
    ds.take point.toNat ++ '.' :: ds.drop point.toNat

/-- One digit, the point and the others, and the exponent. -/
def scientificText (layout : FloatLayout) (ds : List Char) (exponent : Int) : List Char :=
  let mantissa := match ds with
    | d :: e :: rest => d :: '.' :: e :: rest
    | _ => ds
  mantissa ++ 'e' :: (if exponent < 0 then [] else layout.plus) ++ Decimal.ofInt exponent

/-- The text of the decimal `d · 10 ^ k`. -/
def decimalText (layout : FloatLayout) (d : Nat) (k : Int) : List Char :=
  let ds := Decimal.digits d
  let point : Int := ds.length + k
  let isPositional : Bool :=
    match layout.positional with
    | none => true
    | some (least, greatest) => least ≤ point - 1 && point - 1 ≤ greatest
  if isPositional then layout.positionalText ds point
  else layout.scientificText ds (point - 1)

/-- The text of a double. -/
def text (layout : FloatLayout) (x : Binary64) : List Char :=
  let sign := if x.isNegative then ['-'] else []
  if x.isNaN then layout.nan
  else if !x.isFinite then sign ++ layout.infinity
  else if x.isZero then sign ++ (if layout.pointZero then "0.0".toList else ['0'])
  else
    let (d, k) := x.shortest
    sign ++ layout.decimalText d k

end FloatLayout

end Quill
