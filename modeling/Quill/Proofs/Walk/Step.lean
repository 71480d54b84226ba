import Quill.Tree.Lemmas
import Quill.Walk.Get
import Quill.Walk.Update

/-!
# Single steps

What a walk does at one key.  A segment that is not the wildcard selects one key, whatever map it
is resolved against, so there each walk takes a single step, and on a path of one segment it is the
operation of the same kind on the entries of the tree.
-/

namespace Quill

namespace Tree

/-- A key that is there: its value, and below it what the rest of the path asks for. -/
theorem hasAt_iff (isLast : Bool) (inner : Tree → Bool) (t : Tree) (k : Key) :
    t.hasAt isLast inner k = true ↔ ∃ v, t.get? k = some v ∧
      (isLast = true ∨ ∃ child, v = .map child ∧ inner child = true) := by
  unfold hasAt
  cases t.get? k with
  | none => simp
  | some v =>
      cases v with
      | map child => simp
      | _ => simp

/-- What a step finds under a key is found in the value that the key holds. -/
theorem descendAt_of_get? {t : Tree} {k : Key} {v : Value} (h : t.get? k = some v)
    (default : Value) (isLast : Bool) (inner : Tree → Value) :
    t.descendAt default isLast inner k = v.descend default isLast inner := by
  rw [descendAt, h]

theorem get?_setAt_self (value : Value) (isLast : Bool) (inner : Tree → Tree) (t : Tree)
    (k : Key) : (t.setAt value isLast inner k).get? k =
      some (if isLast then value else .map (inner (t.childAt k))) := by
  rw [setAt, get?_insert_self]

theorem get?_setAt_of_ne (value : Value) (isLast : Bool) (inner : Tree → Tree) (t : Tree)
    {k k' : Key} (h : k ≠ k') : (t.setAt value isLast inner k).get? k' = t.get? k' := by
  rw [setAt, get?_insert_of_ne t _ h]

end Tree

namespace Path

theorem selectedKeys_of_ne_wildcard {text : String} (h : text ≠ wildcard) (t : Tree) :
    selectedKeys text t = [.ofText text] := by
  rw [selectedKeys, if_neg h]

section Step

variable {text : String} (h : text ≠ wildcard) (rest : Path) (t : Tree)

include h

theorem has_literal : (Path.key text rest).has t = t.hasAt rest.isNil rest.has (.ofText text) := by
  rw [has, selectedKeys_of_ne_wildcard h, List.all_cons, List.all_nil, Bool.and_true]
  -- Only the empty tree makes a difference, and it holds no key.
  cases t with
  | nil => rfl
  | cons k v others => rfl

theorem get_literal (default : Value) :
    (Path.key text rest).get default false t =
      t.descendAt default rest.isNil (rest.get default false) (.ofText text) := by
  rw [get, if_neg h]
  rfl

theorem set_literal (value : Value) :
    (Path.key text rest).set value t =
      t.setAt value rest.isNil (rest.set value) (.ofText text) := by
  rw [set, selectedKeys_of_ne_wildcard h]
  rfl

theorem remove_literal (keepEmpty : Bool) :
    (Path.key text rest).remove keepEmpty t =
      t.removeAt keepEmpty rest.isNil (rest.remove keepEmpty) (.ofText text) := by
  rw [remove, selectedKeys_of_ne_wildcard h]
  rfl

end Step

section Last

variable {text : String} (h : text ≠ wildcard) (t : Tree)

include h

theorem has_last : (Path.key text .nil).has t = t.contains (.ofText text) := by
  rw [has_literal h]
  unfold Tree.hasAt Tree.contains
  cases t.get? (.ofText text) with
  | none => rfl
  | some v => rfl

theorem get_last (default : Value) :
    (Path.key text .nil).get default false t = (t.get? (.ofText text)).getD default := by
  rw [get_literal h]
  unfold Tree.descendAt
  cases t.get? (.ofText text) with
  | none => rfl
  | some v => rfl

theorem set_last (value : Value) :
    (Path.key text .nil).set value t = t.insert (.ofText text) value := by
  rw [set_literal h]
  rfl

theorem remove_last (keepEmpty : Bool) :
    (Path.key text .nil).remove keepEmpty t = t.erase (.ofText text) := by
  rw [remove_literal h]
  rfl

end Last

end Path

end Quill
