import Quill.Number.Literal

/-!
# Plain scalars as values

Which texts without quotes are null, truth values, integers and floats; all others are strings.
-/

namespace Quill.Yaml

/-- What a scalar stands for. -/
inductive Scalar where
  | null
  | bool (b : Bool)
  /-- An integer from `-2 ^ 63` to `2 ^ 64 - 1`. -/
  | int (n : Int)
  | float (x : Binary64)
  | string (s : String)
  /-- An integer of more than 64 bits, which cannot be represented. -/
  | wide
deriving DecidableEq

namespace Scalar

def isNullText (s : List Char) : Bool :=
  ["null".toList, "Null".toList, "NULL".toList, ['~']].contains s

def boolText? (s : List Char) : Option Bool :=
  if ["true".toList, "True".toList, "TRUE".toList].contains s then some true
  else if ["false".toList, "False".toList, "FALSE".toList].contains s then some false
  else none

/-- The digits that may follow the mark of a base, and their value. -/
def digitsIn? (base : Nat) (s : List Char) : Option Nat :=
  let digit? (c : Char) : Option Nat :=
    let n :=
      if c.isDigit then c.toNat - '0'.toNat
      else if 'a' ≤ c ∧ c ≤ 'f' then c.toNat - 'a'.toNat + 10
      else if 'A' ≤ c ∧ c ≤ 'F' then c.toNat - 'A'.toNat + 10
      else base
    if n < base then some n else none
  if s.isEmpty then none
  else s.foldlM (fun acc c => (digit? c).map (acc * base + ·)) 0

/-- The value behind a mark such as `0x`, if the text starts with one. -/
def based? : List Char → Option Nat
  | '0' :: 'x' :: rest => digitsIn? 16 rest
  | '0' :: 'o' :: rest => digitsIn? 8 rest
  | '0' :: 'b' :: rest => digitsIn? 2 rest
  | _ => none

/-- A text without its sign. -/
def unsigned : List Char → List Char
  | '-' :: rest => rest
  | '+' :: rest => rest
  | s => s

/-- Whether a text is a number with leading zeros, which counts as a string. -/
def hasLeadingZero (s : List Char) : Bool :=
  match unsigned s with
  | '0' :: d :: rest => (d :: rest).all Char.isDigit
  | _ => false

/-- The integer that a text spells, in any size: decimal, or behind the mark of a base. -/
def integer? (s : List Char) : Option Int :=
  let decimal? (ds : List Char) : Option Nat :=
    if hasLeadingZero s then none else digitsIn? 10 ds
  match s with
  | '-' :: rest => ((based? rest).or (decimal? rest)).map fun n => -(n : Int)
  | '+' :: rest => ((based? rest).or (decimal? rest)).map fun n => (n : Int)
  | _ => ((based? s).or (decimal? s)).map fun n => (n : Int)

/-- The float that a text spells: a decimal literal in the range of the doubles, or one of the
words for the infinities and not-a-number. -/
def float? (s : List Char) : Option Binary64 :=
  let positive := match s with
    | '+' :: rest => rest
    | _ => s
  if s.head? == some '+' && (positive.head? == some '+' || positive.head? == some '-') then none
  else if [".inf".toList, ".Inf".toList, ".INF".toList].contains positive then
    some (.infinity false)
  else if ["-.inf".toList, "-.Inf".toList, "-.INF".toList].contains s then some (.infinity true)
  else if [".nan".toList, ".NaN".toList, ".NAN".toList].contains s then some .nan
  else (Binary64.literal? positive).filter Binary64.isFinite

/-- An integer as a scalar.  Beyond 64 bits there is none up to 128 bits; integers still larger
are not integers but floats. -/
def ofInteger? (n : Int) : Option Scalar :=
  if -0x8000000000000000 ≤ n ∧ n ≤ 0xffffffffffffffff then some (.int n)
  else if -0x80000000000000000000000000000000 ≤ n ∧ n ≤ 0xffffffffffffffffffffffffffffffff then
    some .wide
  else none

/-- What a text without quotes stands for. -/
def ofPlain (s : List Char) : Scalar :=
  if s.isEmpty || isNullText s then .null
  else
    match boolText? s with
    | some b => .bool b
    | none =>
        match (integer? s).bind ofInteger? with
        | some n => n
        | none =>
            match if hasLeadingZero s then none else float? s with
            | some x => .float x
            | none => .string (String.ofList s)

end Scalar

end Quill.Yaml
