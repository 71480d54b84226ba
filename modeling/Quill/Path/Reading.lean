import Quill.Path.Brackets
import Quill.Text.Search

/-!
# Reading path expressions

The path that an expression denotes.  Segments are cut at separators; a bracket group is a
segment on its own, with nothing but white space beside it, and its members are cut at commas.
Empty keys, members and groups leave no trace.
-/

namespace Quill.Path

/-- The segment that is being read, from its last token to its first. -/
inductive Pending where
  | text (ts : List Token)
  | group (members : Members)

namespace Pending

/-- Put the segment in front of the path behind it; an empty one is dropped. -/
def close : Pending → Path → Path
  | .text ts, rest =>
      let text := keyChars ts
      if text.isEmpty then rest else .key (String.ofList text) rest
  | .group .nil, rest => rest
  | .group members, rest => .group members rest

/-- Put a token in front of the segment; beside a group only white space may stand. -/
def pushToken (t : Token) : Pending → Option Pending
  | .text ts => some (.text (t :: ts))
  | .group members => if t.isBlank then some (.group members) else none

/-- Put a group in front of the segment; it has to be the only one. -/
def pushGroup (members : Members) : Pending → Option Pending
  | .text ts => if ts.all Token.isBlank then some (.group members) else none
  | .group _ => none

end Pending

/-- A member that is being read: its first segment and the path behind that. -/
structure PendingMember where
  first : Pending
  rest : Path
  /-- Whether a separator or a group makes the member a path of its own. -/
  isPath : Bool

namespace PendingMember

def start : PendingMember := ⟨.text [], .nil, false⟩

/-- Put the member in front of the others; an empty one is dropped. -/
def close (m : PendingMember) (others : Members) : Members :=
  match m.isPath, m.first.close m.rest with
  | _, .nil => others
  | false, .key text _ => .key text others
  | _, p => .path p others

end PendingMember

mutual

/-- The first segment and the path behind it; nothing if a group has other text beside it. -/
def segments : Brackets → Option (Pending × Path)
  | .nil => some (.text [], .nil)
  | .token t rest => do
      let (first, path) ← segments rest
      if t = .separator then some (.text [], first.close path)
      else
        let first ← first.pushToken t
        some (first, path)
  | .group inner rest => do
      let (first, path) ← segments rest
      let (member, others) ← members inner
      let first ← first.pushGroup (member.close others)
      some (first, path)

/-- The first member and the members behind it. -/
def members : Brackets → Option (PendingMember × Members)
  | .nil => some (.start, .nil)
  | .token t rest => do
      let (member, others) ← members rest
      if t = .char ',' then some (.start, member.close others)
      else if t = .separator then
        some (⟨.text [], member.first.close member.rest, true⟩, others)
      else
        let first ← member.first.pushToken t
        some ({ member with first := first }, others)
  | .group inner rest => do
      let (member, others) ← members rest
      let (inMember, inOthers) ← members inner
      let first ← member.first.pushGroup (inMember.close inOthers)
      some ({ member with first := first, isPath := true }, others)

end

/-- The path that nested tokens denote. -/
def ofBrackets (b : Brackets) : Except PathFlaw Path :=
  match segments b with
  | some (first, rest) => .ok (first.close rest)
  | none => .error .partialSegment

/-- The path that a list of tokens denotes. -/
def ofTokens (ts : List Token) : Except PathFlaw Path := do
  let b ← nest ts
  ofBrackets b

/-- The path that an expression denotes.  It may be empty; an error carries the expression. -/
def ofText (separator s : String) : Except PathError Path :=
  (ofTokens (scan separator.toList s.toList)).mapError (.malformed s)

/-- Whether an expression is a single key as it stands: not empty, without a separator and
without a reserved character. -/
def isPlainKey (separator s : String) : Bool :=
  !s.isEmpty
    && (separator.isEmpty || !Text.occurs separator.toList s.toList)
    && !s.toList.any reserved.contains

end Quill.Path
