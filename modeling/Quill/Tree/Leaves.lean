import Quill.Tree.Basic
import Quill.Text.Search

/-!
# The leaves of a tree

Flattening a tree into one level keyed by joined key texts, replacing every leaf by a callback,
and predicates on the shape of a tree.
-/

namespace Quill

/-- What a callback is told about a value: the value, the keys that lead to it, the last of
them, and the whole tree before the first call. -/
structure Visit where
  value : Value
  key : Key
  trail : List Key
  root : Tree

/-- A callback with a state of its own. -/
abbrev Callback (σ : Type) := Visit → σ → Value × σ

namespace Tree

/-- The text of a key with a backslash in front of every separator. -/
def escapedKey (separator : List Char) (k : Key) : List Char :=
  Text.replace separator ('\\' :: separator) k.chars

/-- Add the leaves of a tree to `out`, each under its joined key texts; `trail` holds the
escaped texts of the keys that lead to the tree. -/
def flattenInto (separator : List Char) (trail : List (List Char)) (out : Tree) : Tree → Tree
  | .nil => out
  | .cons key (.map child) rest =>
      let inner := flattenInto separator (trail ++ [escapedKey separator key]) out child
      flattenInto separator trail inner rest
  | .cons key value rest =>
      let path := Text.join separator (trail ++ [escapedKey separator key])
      flattenInto separator trail (out.insert (.ofChars path) value) rest

/-- One level keyed by paths: every leaf under the texts of its keys joined by the separator.
Empty maps below the root leave no entry. -/
def flatten (t : Tree) (separator : String) : Tree :=
  flattenInto separator.toList [] .nil t

/-- Replace the leaves of a tree in order, passing the callback's state along. -/
def mapLeavesFrom {σ : Type} (f : Callback σ) (root : Tree) (trail : List Key) :
    Tree → σ → Tree × σ
  | .nil, s => (.nil, s)
  | .cons key (.map child) rest, s =>
      let (child', s) := mapLeavesFrom f root (trail ++ [key]) child s
      let (rest', s) := mapLeavesFrom f root trail rest s
      (.cons key (.map child') rest', s)
  | .cons key value rest, s =>
      let (value', s) := f ⟨value, key, trail ++ [key], root⟩ s
      let (rest', s) := mapLeavesFrom f root trail rest s
      (.cons key value' rest', s)

/-- Replace every leaf by what the callback answers, in depth-first order. -/
def mapLeaves {σ : Type} (f : Callback σ) (t : Tree) (s : σ) : Tree × σ :=
  mapLeavesFrom f t [] t s

/-- Whether some key is a name. -/
def hasName (t : Tree) : Bool :=
  t.keys.any (!·.isIndex)

/-- Whether every value is a map. -/
def holdsMapsOnly (t : Tree) : Bool :=
  t.values.all Value.isMap

end Tree

end Quill
