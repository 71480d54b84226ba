import Quill.Path.Basic
import Quill.Path.Error

/-!
# Structured paths

A path as a value: a sequence of its segments, where keys are strings, groups are sequences and
members that are paths are sequences inside a group.  Reading such a value back accepts numbers
for keys and nothing else besides.
-/

namespace Quill

mutual

/-- The segments of a path as values. -/
def Path.toValues : Path → List Value
  | .nil => []
  | .key text rest => .string text :: rest.toValues
  | .group members rest => .map (.sequence members.toValues) :: rest.toValues

/-- The members of a group as values. -/
def Members.toValues : Members → List Value
  | .nil => []
  | .key text rest => .string text :: rest.toValues
  | .path sub rest => .map (.sequence sub.toValues) :: rest.toValues

end

/-- The value that describes a path. -/
def Path.toValue (p : Path) : Value :=
  .map (.sequence p.toValues)

/-- The key text of a scalar: strings and numbers have one. -/
def Value.keyText : Value → Except PathError String
  | .string s => .ok s
  | .int i => .ok (Value.int i).text
  | .float x => .ok (Value.float x).text
  | v => .error (.wrongKind v.kind)

mutual

/-- The path whose segments the values of a tree describe, in order; the keys do not matter. -/
def Tree.toPath : Tree → Except PathError Path
  | .nil => .ok .nil
  | .cons _ (.map members) rest => do
      let members ← members.toMembers
      let rest ← rest.toPath
      .ok (.group members rest)
  | .cons _ v rest => do
      let text ← v.keyText
      let rest ← rest.toPath
      .ok (.key text rest)

/-- The members that the values of a tree describe, in order. -/
def Tree.toMembers : Tree → Except PathError Members
  | .nil => .ok .nil
  | .cons _ (.map segments) rest => do
      let sub ← segments.toPath
      if sub.isNil then .error (.malformed "" .emptySubPath)
      else
        let rest ← rest.toMembers
        .ok (.path sub rest)
  | .cons _ v rest => do
      let text ← v.keyText
      let rest ← rest.toMembers
      .ok (.key text rest)

end

/-- The path that a value describes; only maps describe one. -/
def Value.toPath : Value → Except PathError Path
  | .map t => t.toPath
  | v => .error (.wrongKind v.kind)

/-- What is accepted where a path is expected. -/
inductive Locator where
  /-- A path expression. -/
  | text (s : String)
  /-- A number, which stands for its decimal text. -/
  | number (n : Int64)
  /-- A path already taken apart. -/
  | parsed (p : Path)
deriving DecidableEq

namespace Locator

/-- The text of a locator that is not taken apart yet. -/
def text? : Locator → Option String
  | .text s => some s
  | .number n => some (Value.int n).text
  | .parsed _ => none

/-- The locator of a key: its text or its number. -/
def ofKey : Key → Locator
  | .index i => .number i
  | .name s => .text s

/-- The locator that a value describes: strings and numbers are expressions, null is the empty
expression, maps are structured paths. -/
def ofValue : Value → Except PathError Locator
  | .string s => .ok (.text s)
  | .int i => .ok (.number i)
  | .float x => .ok (.text (Value.float x).text)
  | .null => .ok (.text "")
  | .map t => (Value.map t).toPath.map .parsed
  | v => .error (.wrongKind v.kind)

end Locator

end Quill
