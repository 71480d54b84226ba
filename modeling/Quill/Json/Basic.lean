import Quill.Tree.Basic

/-!
# JSON documents

The values of JSON texts, and the trees they stand for: arrays are sequences, the names of
objects key texts.
-/

namespace Quill

/-- The value of a JSON text.  The names of an object are distinct. -/
inductive Json where
  | null
  | bool (b : Bool)
  | int (i : Int64)
  | float (x : Binary64)
  | string (s : String)
  | array (items : List Json)
  | object (fields : List (String × Json))

namespace Json

instance : Inhabited Json := ⟨.null⟩

mutual

/-- The value that a JSON value stands for. -/
def toValue : Json → Value
  | .null => .null
  | .bool b => .bool b
  | .int i => .int i
  | .float x => .float x
  | .string s => .string s
  | .array items => .map (.sequence (itemValues items))
  | .object fields => .map (fieldTree fields)

/-- The values of the items of an array. -/
def itemValues : List Json → List Value
  | [] => []
  | j :: rest => j.toValue :: itemValues rest

/-- The tree of the fields of an object. -/
def fieldTree : List (String × Json) → Tree
  | [] => .nil
  | (name, j) :: rest => .cons (.ofText name) j.toValue (fieldTree rest)

end

mutual

/-- The JSON value of a value.  Sequences are arrays and all other maps objects; `unset` and
floats that are not finite become null. -/
def ofValue : Value → Json
  | .null => .null
  | .unset => .null
  | .bool b => .bool b
  | .int i => .int i
  | .float x => if x.isFinite then .float x else .null
  | .string s => .string s
  | .map t => if t.isSequence then .array (treeItems t) else .object (treeFields t)

/-- The JSON values of the values of a tree. -/
def treeItems : Tree → List Json
  | .nil => []
  | .cons _ v rest => ofValue v :: treeItems rest

/-- The JSON values of the values of a tree, named by their keys. -/
def treeFields : Tree → List (String × Json)
  | .nil => []
  | .cons k v rest => (k.text, ofValue v) :: treeFields rest

end

/-- The JSON value of a tree. -/
def ofTree (t : Tree) : Json :=
  ofValue (.map t)

end Json

end Quill
