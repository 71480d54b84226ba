import Quill.Number.Binary64

/-!
# The shortest decimal of a double

Among the decimals that round to a given double, the ones with the fewest digits, and of
those the one nearest to the double.
-/

namespace Quill.Binary64

/-- The decimals that round to a double, on a common denominator: the double itself and the
two ends of its rounding interval, which belong to it exactly when `closed` is set. -/
structure Interval where
  low : Nat
  value : Nat
  high : Nat
  den : Nat
  closed : Bool

/-- The rounding interval of the magnitude of a finite double.  It reaches half way to the
neighbours; below a power of two the neighbour is twice as near. -/
def interval (x : Binary64) : Interval :=
  let m := x.significand
  let gapBelow := if m = fractionCount ∧ 1 ≤ x.scale then 1 else 2
  let (up, down) :=
    if 1076 ≤ x.scale then (1 <<< (x.scale - 1076), 1) else (1, 1 <<< (1076 - x.scale))
  { low := (4 * m - gapBelow) * up
    value := 4 * m * up
    high := (4 * m + 2) * up
    den := down
    closed := m % 2 == 0 }

/-- Whether `num / den'` lies in the interval, given on a denominator of its own. -/
def Interval.holds (i : Interval) (num den' : Nat) : Bool :=
  let here := num * i.den
  if i.closed then i.low * den' ≤ here && here ≤ i.high * den'
  else i.low * den' < here && here < i.high * den'

/-- The multiple of `10 ^ k` in the interval that is nearest to its value, as the multiplier. -/
def Interval.onGrid? (i : Interval) (k : Int) : Option Nat :=
  let (num, den) :=
    if 0 ≤ k then (i.value, i.den * Nat.pow 10 k.toNat)
    else (i.value * Nat.pow 10 (-k).toNat, i.den)
  let holds (d : Nat) : Bool :=
    if 0 ≤ k then i.holds (d * Nat.pow 10 k.toNat) 1 else i.holds d (Nat.pow 10 (-k).toNat)
  let floor := num / den
  let near := roundHalfEven num den
  let far := if near = floor then floor + 1 else floor
  if holds near then some near else if holds far then some far else none

/-- The digits and the power of ten of the shortest decimal of a non-zero finite double.
The search starts above the greatest power of ten that can matter and needs at most
seventeen digits. -/
def shortest (x : Binary64) : Nat × Int :=
  let i := x.interval
  let top : Int := ((i.high.log2 : Int) - i.den.log2 + 1) * 30103 / 100000 + 2
  let candidate (n : Nat) : Option (Nat × Int) :=
    (i.onGrid? (top - n)).bind fun d => if d = 0 then none else some (d, top - n)
  ((List.range 24).findSome? candidate).getD (0, 0)

end Quill.Binary64
