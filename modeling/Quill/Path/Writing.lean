import Quill.Path.Token

/-!
# Writing path expressions

The expression of a path: segments joined by the separator, a group in brackets with commas
between its members, and in keys a backslash before every character that would end or split
them.  Only separators of one character are written, and not every path has an expression:
`Path.IsWritable` tells which ones do.
-/

namespace Quill

namespace Path

/-- Whether a character of a key needs a backslash. -/
def needsEscape (separator c : Char) : Bool :=
  c = separator || reserved.contains c

/-- The characters of a key with a backslash before each that needs one. -/
def escape (separator : Char) : List Char → List Char
  | [] => []
  | c :: rest =>
      if needsEscape separator c then '\\' :: c :: escape separator rest
      else c :: escape separator rest

/-- A character that can separate segments: neither the backslash nor reserved. -/
def IsSeparator (c : Char) : Prop :=
  c ≠ '\\' ∧ c ∉ reserved

instance (c : Char) : Decidable (IsSeparator c) :=
  inferInstanceAs (Decidable (_ ∧ _))

/-- Whether a key can be written: it has text, no white space at its ends, and no backslash
that would take hold of what follows it. -/
def IsKeyText (text : List Char) : Prop :=
  text ≠ [] ∧ Text.trim text = text ∧ text.getLast? ≠ some '\\'

instance (text : List Char) : Decidable (IsKeyText text) :=
  inferInstanceAs (Decidable (_ ∧ _))

/-- Whether a path as a member of a group can be told from a key: it has several segments or is
one group. -/
def IsSubPath : Path → Prop
  | .nil => False
  | .key _ rest => rest ≠ .nil
  | .group .. => True

end Path

mutual

/-- Whether a path can be written as an expression. -/
def Path.IsWritable : Path → Prop
  | .nil => True
  | .key text rest => Path.IsKeyText text.toList ∧ rest.IsWritable
  | .group members rest => members ≠ .nil ∧ members.IsWritable ∧ rest.IsWritable

/-- Whether the members of a group can be written. -/
def Members.IsWritable : Members → Prop
  | .nil => True
  | .key text rest => Path.IsKeyText text.toList ∧ rest.IsWritable
  | .path sub rest => sub.IsSubPath ∧ sub.IsWritable ∧ rest.IsWritable

end

mutual

/-- The characters of the expression of a path. -/
def Path.write (separator : Char) : Path → List Char
  | .nil => []
  | .key text rest => Path.escape separator text.toList ++ rest.writeBehind separator
  | .group members rest => '[' :: members.write separator ++ ']' :: rest.writeBehind separator

/-- The characters of a path behind another segment: each segment has a separator before it. -/
def Path.writeBehind (separator : Char) : Path → List Char
  | .nil => []
  | .key text rest => separator :: Path.escape separator text.toList ++ rest.writeBehind separator
  | .group members rest =>
      separator :: '[' :: members.write separator ++ ']' :: rest.writeBehind separator

/-- The characters of the members of a group, with commas between them. -/
def Members.write (separator : Char) : Members → List Char
  | .nil => []
  | .key text rest => Path.escape separator text.toList ++ rest.writeBehind separator
  | .path sub rest => sub.write separator ++ rest.writeBehind separator

/-- The characters of members behind another one: each has a comma before it. -/
def Members.writeBehind (separator : Char) : Members → List Char
  | .nil => []
  | .key text rest => ',' :: Path.escape separator text.toList ++ rest.writeBehind separator
  | .path sub rest => ',' :: sub.write separator ++ rest.writeBehind separator

end

/-- The expression of a path. -/
def Path.toText (separator : Char) (p : Path) : String :=
  String.ofList (p.write separator)

namespace Path

/-- A key without separators and reserved characters is written as it stands. -/
theorem escape_of_plain {separator : Char} {s : List Char}
    (h : ∀ c ∈ s, needsEscape separator c = false) : escape separator s = s := by
  induction s with
  | nil => rfl
  | cons c rest ih =>
      simp [escape, h c (by simp), ih fun d hd => h d (by simp [hd])]

/-- Behind another segment a path is written as usual, with one separator in front. -/
theorem writeBehind_eq (separator : Char) {p : Path} (h : p ≠ .nil) :
    p.writeBehind separator = separator :: p.write separator := by
  cases p with
  | nil => exact absurd rfl h
  | key text rest => simp [writeBehind, write]
  | group members rest => simp [writeBehind, write]

end Path

end Quill
