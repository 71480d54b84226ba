/-!
# Decimal numerals

The decimal text of natural numbers and integers, its reading, and the integers that fit
a signed 64-bit word.
-/

namespace Quill.Decimal

/-- The character of a digit below ten. -/
def digitChar (d : Nat) : Char :=
  Char.ofNat ('0'.toNat + d)

/-- The value of a digit character. -/
def digitValue (c : Char) : Nat :=
  c.toNat - '0'.toNat

/-- The decimal digits of a natural number, most significant first, without leading zeros. -/
def digits (n : Nat) : List Char :=
  if n < 10 then [digitChar n] else digits (n / 10) ++ [digitChar (n % 10)]
termination_by n
decreasing_by omega

/-- The decimal text of an integer. -/
def ofInt : Int → List Char
  | .ofNat n => digits n
  | .negSucc n => '-' :: digits (n + 1)

/-- The number that a list of digits denotes. -/
def value (s : List Char) : Nat :=
  s.foldl (fun acc c => 10 * acc + digitValue c) 0

/-- Whether a text is a non-empty list of digits. -/
def isNumeral (s : List Char) : Bool :=
  !s.isEmpty && s.all Char.isDigit

/-- Whether a text is the decimal text of a natural number: digits without a leading zero. -/
def isCanonical (s : List Char) : Bool :=
  isNumeral s && (s.length == 1 || s.head? != some '0')

/-- The 64-bit integer equal to `n`, if there is one. -/
def word? (n : Int) : Option Int64 :=
  if Int64.minValue.toInt ≤ n ∧ n ≤ Int64.maxValue.toInt then some (Int64.ofInt n) else none

/-- The 64-bit integer whose decimal text is `s`, if there is one. -/
def canonical? (s : List Char) : Option Int64 :=
  match s with
  | '-' :: rest =>
      if isCanonical rest && rest != ['0'] then word? (-(value rest : Int)) else none
  | _ => if isCanonical s then word? (value s : Int) else none

/-- The 64-bit integer that a text denotes in the wide reading: an optional sign and any
digits, leading zeros included. -/
def signed? (s : List Char) : Option Int64 :=
  match s with
  | '-' :: rest => if isNumeral rest then word? (-(value rest : Int)) else none
  | '+' :: rest => if isNumeral rest then word? (value rest : Int) else none
  | _ => if isNumeral s then word? (value s : Int) else none

end Quill.Decimal
