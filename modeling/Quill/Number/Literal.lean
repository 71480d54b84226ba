import Quill.Number.Decimal
import Quill.Number.Binary64

/-!
# Decimal literals of doubles

A sign, digits with at most one point, and an exponent; the double is the one nearest to the
number written.
-/

namespace Quill.Binary64

/-- A text after an optional sign, with the sign. -/
def splitSign : List Char → Bool × List Char
  | '-' :: rest => (true, rest)
  | '+' :: rest => (false, rest)
  | s => (false, s)

/-- Read an exponent part: nothing, or a mark, an optional sign and digits. -/
def exponent? : List Char → Option Int
  | [] => some 0
  | c :: rest =>
      if c = 'e' ∨ c = 'E' then
        let (negative, ds) := splitSign rest
        if Decimal.isNumeral ds then
          some (if negative then -(Decimal.value ds : Int) else Decimal.value ds)
        else none
      else none

/-- Read a literal; at least one digit stands before or after the point. -/
def literal? (s : List Char) : Option Binary64 :=
  let (negative, unsigned) := splitSign s
  let (whole, rest) := unsigned.span Char.isDigit
  let (fraction, rest) := match rest with
    | '.' :: more => more.span Char.isDigit
    | _ => ([], rest)
  if whole.isEmpty && fraction.isEmpty then none
  else
    (exponent? rest).map fun e =>
      ofDecimal negative (Decimal.value (whole ++ fraction)) (e - fraction.length)

end Quill.Binary64
