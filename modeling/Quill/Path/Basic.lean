/-!
# Paths

A path is a list of segments, each a key or a group of members; a member is a key or a complete
path of its own.  The segments form the path directly, so that walking along a path is
structural recursion.
-/

namespace Quill

mutual

/-- A path from the root of a tree downwards. -/
inductive Path where
  | nil
  /-- A literal key, or the wildcard if the text is `*`. -/
  | key (text : String) (rest : Path)
  | group (members : Members) (rest : Path)
deriving DecidableEq

/-- The alternatives of a group. -/
inductive Members where
  | nil
  /-- A key at the level of the group; the path goes on behind it. -/
  | key (text : String) (rest : Members)
  /-- A path that starts at the level of the group and stands on its own. -/
  | path (sub : Path) (rest : Members)
deriving DecidableEq

end

instance : Inhabited Path := ⟨.nil⟩
instance : Inhabited Members := ⟨.nil⟩

namespace Path

def isNil : Path → Bool
  | .nil => true
  | _ => false

/-- The number of segments. -/
def length : Path → Nat
  | .nil => 0
  | .key _ rest => rest.length + 1
  | .group _ rest => rest.length + 1

/-- The segments of one path followed by those of another. -/
def append : Path → Path → Path
  | .nil, q => q
  | .key text rest, q => .key text (rest.append q)
  | .group members rest, q => .group members (rest.append q)

instance : Append Path := ⟨append⟩

/-- The path of literal keys. -/
def ofKeys : List String → Path
  | [] => .nil
  | k :: rest => .key k (ofKeys rest)

/-- The key text that selects every key of a map. -/
def wildcard : String := "*"

/-- The separator when none is given. -/
def defaultSeparator : String := "."

/-- The characters with a meaning of their own inside a path. -/
def reserved : List Char := ['*', '[', ']', ',']

/-! ### Empty paths -/

theorem eq_nil_of_isNil {p : Path} (h : p.isNil = true) : p = .nil := by
  cases p with
  | nil => rfl
  | key text rest => cases h
  | group ms rest => cases h

theorem ne_nil_of_isNil_eq_false {p : Path} (h : p.isNil = false) : p ≠ .nil := by
  rintro rfl
  cases h

theorem isNil_eq_false_of_ne_nil {p : Path} (h : p ≠ .nil) : p.isNil = false := by
  cases p with
  | nil => exact absurd rfl h
  | key text rest => rfl
  | group ms rest => rfl

/-! ### Paths behind one another -/

@[simp] theorem nil_append (p : Path) : .nil ++ p = p := rfl

@[simp] theorem key_append (text : String) (rest p : Path) :
    Path.key text rest ++ p = .key text (rest ++ p) := rfl

@[simp] theorem group_append (ms : Members) (rest p : Path) :
    Path.group ms rest ++ p = .group ms (rest ++ p) := rfl

@[simp] theorem append_nil : ∀ p : Path, p ++ .nil = p
  | .nil => rfl
  | .key text rest => by rw [key_append, append_nil rest]
  | .group ms rest => by rw [group_append, append_nil rest]

theorem append_assoc : ∀ p q r : Path, p ++ q ++ r = p ++ (q ++ r)
  | .nil, _, _ => rfl
  | .key text rest, q, r => by simp only [key_append, append_assoc rest q r]
  | .group ms rest, q, r => by simp only [group_append, append_assoc rest q r]

end Path

namespace Members

def isNil : Members → Bool
  | .nil => true
  | _ => false

end Members

end Quill
