import Quill.Toml.Basic
import Quill.Number.Hex
import Quill.Number.Literal

/-!
# Plain scalars of TOML texts

Truth values, numbers, dates and times, each given by all the characters of its word.
-/

namespace Quill.Toml

/-- Leave out the underscores of a numeral; each stands between two digits. -/
def joinDigits? (isDigit : Char → Bool) : List Char → Option (List Char)
  | [] => none
  | [c] => if isDigit c then some [c] else none
  | c :: '_' :: rest => if isDigit c then (joinDigits? isDigit rest).map (c :: ·) else none
  | c :: rest => if isDigit c then (joinDigits? isDigit rest).map (c :: ·) else none

/-- Refuse leading zeros. -/
def noLeadingZero? (ds : List Char) : Option (List Char) :=
  if ds.head? = some '0' ∧ ds.length ≠ 1 then none else some ds

/-- The greatest integer, `2 ^ 63 - 1`. -/
def maxInteger : Int := 0x7fffffffffffffff

/-- The integers lie between the ends of a signed 64-bit word. -/
def inRange? (n : Int) : Option Int :=
  if -maxInteger - 1 ≤ n ∧ n ≤ maxInteger then some n else none

/-- The number of a numeral in the given base. -/
def based? (base : Nat) (s : List Char) : Option Int := do
  let isDigit (c : Char) : Bool := ((Hex.digit? c).map fun d => decide (d < base)) == some true
  let ds ← joinDigits? isDigit s
  inRange? (ds.foldl (fun acc d => acc * base + (Hex.digit? d).getD 0) 0 : Nat)

/-- The integer that a word denotes. -/
def integer? : List Char → Option Int
  | '0' :: 'x' :: rest => based? 16 rest
  | '0' :: 'o' :: rest => based? 8 rest
  | '0' :: 'b' :: rest => based? 2 rest
  | s => do
      let (negative, unsigned) := Binary64.splitSign s
      let ds ← (joinDigits? Char.isDigit unsigned).bind noLeadingZero?
      inRange? (if negative then -(Decimal.value ds : Int) else Decimal.value ds)

/-- The exponent behind its mark. -/
def exponent? (s : List Char) : Option Int := do
  let (negative, unsigned) := Binary64.splitSign s
  let ds ← joinDigits? Char.isDigit unsigned
  return if negative then -(Decimal.value ds : Int) else Decimal.value ds

/-- Whether a character marks an exponent. -/
def isExponentMark (c : Char) : Bool := c == 'e' || c == 'E'

/-- The double that a word denotes.  Digits stand on both sides of a point. -/
def float? (s : List Char) : Option Binary64 := do
  let (negative, unsigned) := Binary64.splitSign s
  if unsigned = "inf".toList then return .infinity negative
  else if unsigned = "nan".toList then return .nan
  else
    let (number, power) := unsigned.span fun c => !isExponentMark c
    let (whole, fraction) := number.span (· ≠ '.')
    let whole ← (joinDigits? Char.isDigit whole).bind noLeadingZero?
    let fraction ← match fraction with
      | [] => if power.isEmpty then none else some []
      | _ :: ds => joinDigits? Char.isDigit ds
    let e ← match power with
      | [] => some 0
      | _ :: digits => exponent? digits
    let x := Binary64.ofDecimal negative (Decimal.value (whole ++ fraction)) (e - fraction.length)
    if x = .infinity false then none else return x

/-- The number of exactly `n` digits at the front, and the rest. -/
def takeNumber? (n : Nat) (s : List Char) : Option (Nat × List Char) :=
  let ds := s.take n
  if ds.length = n ∧ ds.all Char.isDigit then some (Decimal.value ds, s.drop n) else none

/-- The rest behind a given character. -/
def after? (c : Char) : List Char → Option (List Char)
  | [] => none
  | d :: rest => if d = c then some rest else none

/-- The number of days of a month. -/
def daysOf (year month : Nat) : Nat :=
  if month = 2 then
    if year % 4 = 0 ∧ (year % 100 ≠ 0 ∨ year % 400 = 0) then 29 else 28
  else if month = 4 ∨ month = 6 ∨ month = 9 ∨ month = 11 then 30
  else 31

/-- The rest behind a date. -/
def skipDate? (s : List Char) : Option (List Char) := do
  let (year, s) ← takeNumber? 4 s
  let (month, s) ← (after? '-' s).bind (takeNumber? 2)
  let (day, s) ← (after? '-' s).bind (takeNumber? 2)
  if 1 ≤ month ∧ month ≤ 12 ∧ 1 ≤ day ∧ day ≤ daysOf year month then some s else none

/-- The rest behind hours and minutes. -/
def skipMinutes? (s : List Char) : Option (List Char) := do
  let (hour, s) ← takeNumber? 2 s
  let (minute, s) ← (after? ':' s).bind (takeNumber? 2)
  if hour < 24 ∧ minute < 60 then some s else none

/-- The rest behind a time of day. -/
def skipTime? (s : List Char) : Option (List Char) := do
  let s ← skipMinutes? s
  let (second, s) ← (after? ':' s).bind (takeNumber? 2)
  if 60 < second then none
  else
    match s with
    | '.' :: fraction =>
        let (ds, rest) := fraction.span Char.isDigit
        if ds.isEmpty then none else some rest
    | _ => some s

/-- Whether a text is empty or the distance to universal time. -/
def isOffset : List Char → Bool
  | [] => true
  | [c] => c == 'Z' || c == 'z'
  | c :: rest => (c == '+' || c == '-') && skipMinutes? rest == some []

/-- Whether a character separates a date from a time. -/
def isTimeMark (c : Char) : Bool := c == 'T' || c == 't' || c == ' '

/-- Whether a text is a date, a time or both; only both together may have an offset. -/
def isMoment (s : List Char) : Bool :=
  match skipDate? s with
  | some [] => true
  | some (c :: time) => isTimeMark c && ((skipTime? time).map isOffset == some true)
  | none => skipTime? s == some []

/-- The scalar that a word denotes. -/
def scalar? (s : List Char) : Option Toml :=
  if s = "true".toList then some (.bool true)
  else if s = "false".toList then some (.bool false)
  else if isMoment s then some (.moment (String.ofList s))
  else ((integer? s).map .integer).or ((float? s).map .float)

end Quill.Toml
