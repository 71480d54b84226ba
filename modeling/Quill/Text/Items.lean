import Quill.Text.Blank
import Quill.Text.Search
import Quill.Number.Literal
import Quill.Tree.Basic

/-!
# Item lists

Texts that list items between separators, such as `a, b, c`, and the values that bare words
stand for.
-/

namespace Quill.Text

/-- Cut a text at its separators, giving the first item and the others; the first `skip`
characters belong to a separator already seen.  A backslash makes the separator behind it part
of the item and is dropped. -/
def cutFrom (separator : List Char) : Nat → List Char → List Char × List (List Char)
  | _, [] => ([], [])
  | skip + 1, _ :: rest => cutFrom separator skip rest
  | 0, c :: rest =>
      if ('\\' :: separator).isPrefixOf (c :: rest) then
        let (first, others) := cutFrom separator separator.length rest
        (separator ++ first, others)
      else if separator.isPrefixOf (c :: rest) then
        let (first, others) := cutFrom separator (separator.length - 1) rest
        ([], first :: others)
      else
        let (first, others) := cutFrom separator 0 rest
        (c :: first, others)

/-- The items of a text without white space around them; empty ones are left out.  An empty
separator leaves the whole text as one item. -/
def splitItems (separator s : List Char) : List (List Char) :=
  let s := trim s
  if separator.isEmpty then (if s.isEmpty then [] else [s])
  else
    let (first, others) := cutFrom separator 0 s
    ((first :: others).map trim).filter (!·.isEmpty)

/-- The value of a word: `null`, `true` and `false` in any case, integers, and decimal literals
in the range of the doubles; every other word is a string. -/
def wordValue (s : List Char) : Value :=
  let lower := asciiLower s
  if lower = "null".toList then .null
  else if lower = "true".toList then .bool true
  else if lower = "false".toList then .bool false
  else
    match Decimal.signed? s with
    | some i => .int i
    | none =>
        match Binary64.literal? s with
        | some x => if x.isFinite then .float x else .string (String.ofList s)
        | none => .string (String.ofList s)

/-- The sequence of the items of a text, as the values of words or as strings. -/
def itemSequence (separator : List Char) (convert : Bool) (s : List Char) : Tree :=
  let value (item : List Char) : Value :=
    if convert then wordValue item else .string (String.ofList item)
  .sequence ((splitItems separator s).map value)

end Quill.Text
