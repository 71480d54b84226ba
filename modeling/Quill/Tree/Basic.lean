import Quill.Key
import Quill.Number.Layout

/-!
# Trees

A tree is a map from keys to values in insertion order, a value a scalar or a tree.  Sequences
are the trees with the keys `0, 1, 2, …` in order.  The operations keep every key at most once;
`Tree.Distinct` states it.
-/

namespace Quill

mutual

/-- A value held in a tree. -/
inductive Value where
  | null
  | bool (b : Bool)
  | int (i : Int64)
  | float (x : Binary64)
  | string (s : String)
  | map (t : Tree)
  /-- A request, in a tree to be merged, to remove the key that holds it. -/
  | unset
deriving DecidableEq

/-- A map from keys to values, in order. -/
inductive Tree where
  | nil
  | cons (key : Key) (value : Value) (rest : Tree)
deriving DecidableEq

end

instance : Inhabited Value := ⟨.null⟩
instance : Inhabited Tree := ⟨.nil⟩

namespace Tree

/-- The entries in order. -/
def toList : Tree → List (Key × Value)
  | .nil => []
  | .cons k v rest => (k, v) :: rest.toList

def keys : Tree → List Key
  | .nil => []
  | .cons k _ rest => k :: rest.keys

def values : Tree → List Value
  | .nil => []
  | .cons _ v rest => v :: rest.values

def size : Tree → Nat
  | .nil => 0
  | .cons _ _ rest => rest.size + 1

def isEmpty : Tree → Bool
  | .nil => true
  | .cons .. => false

/-- The value under a key. -/
def get? : Tree → Key → Option Value
  | .nil, _ => none
  | .cons k v rest, key => if k = key then some v else rest.get? key

def contains (t : Tree) (key : Key) : Bool :=
  (t.get? key).isSome

/-- Set the value under a key: in place if the key is there, at the end if not. -/
def insert : Tree → Key → Value → Tree
  | .nil, key, value => .cons key value .nil
  | .cons k v rest, key, value =>
      if k = key then .cons k value rest else .cons k v (rest.insert key value)

/-- Remove a key; the others keep their order. -/
def erase : Tree → Key → Tree
  | .nil, _ => .nil
  | .cons k v rest, key => if k = key then rest else .cons k v (rest.erase key)

/-- Insert entries one after the other. -/
def insertAll (t : Tree) (entries : List (Key × Value)) : Tree :=
  entries.foldl (fun t e => t.insert e.1 e.2) t

/-- The tree made by inserting entries into the empty tree. -/
def ofList (entries : List (Key × Value)) : Tree :=
  Tree.nil.insertAll entries

/-- The values under consecutive indices from `i` on. -/
def sequenceFrom : Nat → List Value → Tree
  | _, [] => .nil
  | i, v :: rest => .cons (.index (Int64.ofNat i)) v (sequenceFrom (i + 1) rest)

/-- The sequence of the given values. -/
def sequence (vs : List Value) : Tree :=
  sequenceFrom 0 vs

/-- The greatest index key. -/
def maxIndex? (t : Tree) : Option Int64 :=
  (t.keys.filterMap Key.index?).max?

/-- The next free index: one past the greatest index key, `0` if there is no index key from
zero on, and nothing if the greatest index key is the greatest 64-bit integer. -/
def nextIndex? (t : Tree) : Option Int64 :=
  match t.maxIndex? with
  | none => some 0
  | some i => if i = Int64.maxValue then none else some (max i (-1) + 1)

/-- Append a value under the next free index; with none left the value is dropped. -/
def push (t : Tree) (v : Value) : Tree :=
  match t.nextIndex? with
  | some i => t.insert (.index i) v
  | none => t

/-- The key under which `push` puts a value, its answer to the caller. -/
def pushedKey? (t : Tree) : Option Key :=
  t.nextIndex?.map .index

/-- Whether the keys are `i, i + 1, …` in order. -/
def isSequenceFrom : Nat → Tree → Bool
  | _, .nil => true
  | i, .cons k _ rest => k == .index (Int64.ofNat i) && isSequenceFrom (i + 1) rest

/-- Whether the keys are `0, 1, …` in order. -/
def isSequence (t : Tree) : Bool :=
  isSequenceFrom 0 t

end Tree

namespace Value

/-- The kinds of values. -/
inductive Kind where
  | null | bool | int | float | string | map | unset
deriving DecidableEq

/-- The name of a kind in messages. -/
def Kind.name : Kind → String
  | .null => "null"
  | .bool => "bool"
  | .int => "int"
  | .float => "float"
  | .string => "string"
  | .map => "map"
  | .unset => "unset"

def kind : Value → Kind
  | .null => .null
  | .bool _ => .bool
  | .int _ => .int
  | .float _ => .float
  | .string _ => .string
  | .map _ => .map
  | .unset => .unset

def isNull : Value → Bool
  | .null => true
  | _ => false

def isMap : Value → Bool
  | .map _ => true
  | _ => false

/-- The tree of a map value. -/
def tree? : Value → Option Tree
  | .map t => some t
  | _ => none

/-- The text of a string value. -/
def string? : Value → Option String
  | .string s => some s
  | _ => none

/-- The value of a key. -/
def ofKey : Key → Value
  | .index i => .int i
  | .name s => .string s

/-- The key that a value stands for.  Strings name keys, integers, truth values and finite
floats without their fraction are index keys; nothing else can be a key, nor can the empty
string. -/
def toKey? : Value → Option Key
  | .string s => if s.isEmpty then none else some (.ofText s)
  | .int i => some (.index i)
  | .bool b => some (.index (if b then 1 else 0))
  | .float x => if x.isFinite then some (.index x.truncate) else none
  | _ => none

/-- The short text of a value; maps only tell their size. -/
def text : Value → String
  | .null => "null"
  | .unset => "null"
  | .bool b => if b then "true" else "false"
  | .int i => String.ofList (Decimal.ofInt i.toInt)
  | .float x => String.ofList (FloatLayout.plain.text x)
  | .string s => s
  | .map t => "<map of " ++ String.ofList (Decimal.digits t.size) ++ ">"

end Value

end Quill
