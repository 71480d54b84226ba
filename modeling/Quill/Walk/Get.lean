import Quill.Walk.Step
import Quill.Tree.Merge

/-!
# Reading along a path

Reading the values that a path selects, and asking whether all of them are there.
-/

namespace Quill

/-- The value of every entry replaced by a function of it. -/
def Tree.mapValues (f : Value → Value) : Tree → Tree
  | .nil => .nil
  | .cons k v rest => .cons k (f v) (rest.mapValues f)

/-- What a step finds in a value: the value itself if it is the last step, what `inner` reads
in a map, and the default otherwise. -/
def Value.descend (v default : Value) (isLast : Bool) (inner : Tree → Value) : Value :=
  if isLast then v
  else
    match v with
    | .map child => inner child
    | _ => default

/-- What a step finds under a key. -/
def Tree.descendAt (default : Value) (isLast : Bool) (inner : Tree → Value) (t : Tree)
    (k : Key) : Value :=
  match t.get? k with
  | some v => v.descend default isLast inner
  | none => default

mutual

/-- Read the values at a path.  A literal key gives the value itself, a wildcard and a group
give maps of what they select; a wildcard over a map that starts with the key `0` gives a
sequence.  Inside a member that is a path (`nested`) every result is a map shaped like the tree,
so that the results of several members can be merged. -/
def Path.get (default : Value) : Path → Bool → Tree → Value
  | .nil, _, _ => default
  | .key text rest, nested, t =>
      if text = Path.wildcard then
        let found := t.mapValues (·.descend default rest.isNil (rest.get default nested))
        if !nested && t.keys.head? == some (.index 0) then .map (.sequence found.values)
        else .map found
      else
        let k := Key.ofText text
        let v := t.descendAt default rest.isNil (rest.get default nested) k
        if nested then .map (.cons k v .nil) else v
  | .group members rest, nested, t =>
      .map (members.get default rest.isNil (rest.get default nested) t .nil)

/-- Read the members of a group into `found`; `inner` reads the path behind the group. -/
def Members.get (default : Value) : Members → Bool → (Tree → Value) → Tree → Tree → Tree
  | .nil, _, _, _, found => found
  | .key text rest, isLast, inner, t, found =>
      let k := Key.ofText text
      rest.get default isLast inner t (found.insert k (t.descendAt default isLast inner k))
  | .path sub rest, isLast, inner, t, found =>
      let found := match sub.get default true t with
        | .map more => found.merge {} more
        | _ => found
      rest.get default isLast inner t found

end

/-- Whether a key is there and, unless the step is the last, holds a map for which `inner`
answers yes. -/
def Tree.hasAt (isLast : Bool) (inner : Tree → Bool) (t : Tree) (k : Key) : Bool :=
  match t.get? k with
  | none => false
  | some v =>
      isLast ||
        match v with
        | .map child => inner child
        | _ => false

mutual

/-- Whether every key that a path selects is there, and at least one is selected at each step.
Nothing is in the empty tree. -/
def Path.has : Path → Tree → Bool
  | .nil, _ => false
  | .key text rest, t =>
      !t.isEmpty && (Path.selectedKeys text t).all (t.hasAt rest.isNil rest.has)
  | .group members rest, t =>
      !t.isEmpty && !members.isNil && members.has rest.isNil rest.has t

/-- Whether everything that the members of a group select is there. -/
def Members.has : Members → Bool → (Tree → Bool) → Tree → Bool
  | .nil, _, _, _ => true
  | .key text rest, isLast, inner, t =>
      t.hasAt isLast inner (.ofText text) && rest.has isLast inner t
  | .path sub rest, isLast, inner, t => sub.has t && rest.has isLast inner t

end

end Quill
