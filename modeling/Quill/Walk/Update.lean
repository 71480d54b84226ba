import Quill.Walk.Step
import Quill.Tree.Leaves

/-!
# Changing a tree along a path

Setting, removing and replacing the values that a path selects.  The keys of a step are taken
one after the other, each on the tree that the ones before it left.
-/

namespace Quill

namespace Tree

/-- The map under a key; anything else counts as the empty map. -/
def childAt (t : Tree) (k : Key) : Tree :=
  match t.get? k with
  | some (.map child) => child
  | _ => .nil

/-- Set the value under a key, or let `inner` set it in the map under the key. -/
def setAt (value : Value) (isLast : Bool) (inner : Tree → Tree) (t : Tree) (k : Key) : Tree :=
  t.insert k (if isLast then value else .map (inner (t.childAt k)))

/-- Remove a key, or let `inner` remove from the map under the key, which goes as well if it is
empty afterwards and empty maps are not kept. -/
def removeAt (keepEmpty isLast : Bool) (inner : Tree → Tree) (t : Tree) (k : Key) : Tree :=
  if isLast then t.erase k
  else
    match t.get? k with
    | some (.map child) =>
        let child := inner child
        if child.isEmpty && !keepEmpty then t.erase k else t.insert k (.map child)
    | _ => t

end Tree

mutual

/-- Set a value everywhere a path selects.  Maps are made where they are missing, and replace
other values in the way. -/
def Path.set (value : Value) : Path → Tree → Tree
  | .nil, t => t
  | .key text rest, t =>
      (Path.selectedKeys text t).foldl (Tree.setAt value rest.isNil (rest.set value)) t
  | .group members rest, t => members.set value rest.isNil (rest.set value) t

/-- Set a value everywhere the members of a group select. -/
def Members.set (value : Value) : Members → Bool → (Tree → Tree) → Tree → Tree
  | .nil, _, _, t => t
  | .key text rest, isLast, inner, t =>
      rest.set value isLast inner (t.setAt value isLast inner (.ofText text))
  | .path sub rest, isLast, inner, t => rest.set value isLast inner (sub.set value t)

end

mutual

/-- Remove everything that a path selects. -/
def Path.remove (keepEmpty : Bool) : Path → Tree → Tree
  | .nil, t => t
  | .key text rest, t =>
      (Path.selectedKeys text t).foldl
        (Tree.removeAt keepEmpty rest.isNil (rest.remove keepEmpty)) t
  | .group members rest, t => members.remove keepEmpty rest.isNil (rest.remove keepEmpty) t

/-- Remove everything that the members of a group select. -/
def Members.remove (keepEmpty : Bool) : Members → Bool → (Tree → Tree) → Tree → Tree
  | .nil, _, _, t => t
  | .key text rest, isLast, inner, t =>
      rest.remove keepEmpty isLast inner (t.removeAt keepEmpty isLast inner (.ofText text))
  | .path sub rest, isLast, inner, t =>
      rest.remove keepEmpty isLast inner (sub.remove keepEmpty t)

end

variable {σ : Type}

/-- Replace the value under a key by what the callback answers, or let `inner` go on in the map
under the key; missing keys and other values stay.  `trail` leads to the tree. -/
def Tree.filterAt (f : Callback σ) (root : Tree) (trail : List Key) (isLast : Bool)
    (inner : List Key → Tree → σ → Tree × σ) (ts : Tree × σ) (k : Key) : Tree × σ :=
  match ts.1.get? k with
  | none => ts
  | some v =>
      if isLast then
        let (v, s) := f ⟨v, k, trail ++ [k], root⟩ ts.2
        (ts.1.insert k v, s)
      else
        match v with
        | .map child =>
            let (child, s) := inner (trail ++ [k]) child ts.2
            (ts.1.insert k (.map child), s)
        | _ => ts

mutual

/-- Replace every value that a path selects by what the callback answers.  `trail` holds the
keys that lead to the tree. -/
def Path.filterFrom (f : Callback σ) (root : Tree) :
    Path → List Key → Tree → σ → Tree × σ
  | .nil, _, t, s => (t, s)
  | .key text rest, trail, t, s =>
      (Path.selectedKeys text t).foldl
        (Tree.filterAt f root trail rest.isNil (rest.filterFrom f root)) (t, s)
  | .group members rest, trail, t, s =>
      members.filterFrom f root rest.isNil (rest.filterFrom f root) trail t s

/-- Replace every value that the members of a group select. -/
def Members.filterFrom (f : Callback σ) (root : Tree) :
    Members → Bool → (List Key → Tree → σ → Tree × σ) → List Key → Tree → σ → Tree × σ
  | .nil, _, _, _, t, s => (t, s)
  | .key text rest, isLast, inner, trail, t, s =>
      let (t, s) := Tree.filterAt f root trail isLast inner (t, s) (.ofText text)
      rest.filterFrom f root isLast inner trail t s
  | .path sub rest, isLast, inner, trail, t, s =>
      let (t, s) := sub.filterFrom f root trail t s
      rest.filterFrom f root isLast inner trail t s

end

/-- Replace every value that a path selects by what the callback answers; the callback is told
the tree as it was before the first call. -/
def Path.filter (f : Callback σ) (p : Path) (t : Tree) (s : σ) : Tree × σ :=
  p.filterFrom f t [] t s

end Quill
