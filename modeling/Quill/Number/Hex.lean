/-!
# Hexadecimal numerals

The value of hexadecimal digits of either case, and the character that such a numeral encodes.
-/

namespace Quill.Hex

/-- The value of a hexadecimal digit of either case. -/
def digit? (c : Char) : Option Nat :=
  if c.isDigit then some (c.toNat - '0'.toNat)
  else if 'a' ≤ c ∧ c ≤ 'f' then some (c.toNat - 'a'.toNat + 10)
  else if 'A' ≤ c ∧ c ≤ 'F' then some (c.toNat - 'A'.toNat + 10)
  else none

/-- The number that hexadecimal digits spell. -/
def value? (ds : List Char) : Option Nat :=
  ds.foldlM (fun acc d => (digit? d).map (acc * 16 + ·)) 0

/-- The character with the code that hexadecimal digits spell. -/
def char? (ds : List Char) : Option Char := do
  let n ← value? ds
  if h : n.isValidChar then some (Char.ofNatAux n h) else none

end Quill.Hex
