import Quill.Number.Decimal

/-!
# Keys

A key of a map is a 64-bit integer or a name.  A text that is the decimal text of a 64-bit
integer is an index key, every other text a name.
-/

namespace Quill

/-- A key of a map. -/
inductive Key where
  /-- An integer, the position in a sequence. -/
  | index (i : Int64)
  | name (text : String)
deriving DecidableEq

namespace Key

instance : Inhabited Key := ⟨.name ""⟩

/-- The key that a list of characters names. -/
def ofChars (s : List Char) : Key :=
  match Decimal.canonical? s with
  | some i => .index i
  | none => .name (String.ofList s)

/-- The key that a text names. -/
def ofText (s : String) : Key :=
  ofChars s.toList

/-- The characters of a key's text. -/
def chars : Key → List Char
  | .index i => Decimal.ofInt i.toInt
  | .name s => s.toList

/-- The text of a key. -/
def text (k : Key) : String :=
  String.ofList k.chars

/-- The integer of an index key. -/
def index? : Key → Option Int64
  | .index i => some i
  | .name _ => none

def isIndex (k : Key) : Bool :=
  k.index?.isSome

/-- A key is canonical if reading its text gives the key back. -/
def IsCanonical (k : Key) : Prop :=
  ofText k.text = k

instance (k : Key) : Decidable k.IsCanonical :=
  inferInstanceAs (Decidable (_ = _))

end Key

end Quill
