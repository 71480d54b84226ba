import Quill.Tree.Basic

/-!
# Path errors

Why a path expression or a structured path is refused, and the wording of the refusal.
-/

namespace Quill

/-- What is wrong with a malformed path. -/
inductive PathFlaw where
  /-- A closing bracket without an opening one before it. -/
  | unexpectedClosing
  /-- An opening bracket that is never closed. -/
  | unclosed
  /-- A bracket group next to other text of its segment. -/
  | partialSegment
  /-- A structured group that holds a path without segments. -/
  | emptySubPath
deriving DecidableEq

namespace PathFlaw

def message : PathFlaw → String
  | .unexpectedClosing => "unexpected closing bracket"
  | .unclosed => "unclosed bracket group"
  | .partialSegment => "a bracket group must form a whole path segment"
  | .emptySubPath => "a group contains an empty sub-path"

end PathFlaw

/-- Why a path is refused. -/
inductive PathError where
  /-- No segment is left of the path. -/
  | empty (path : String)
  | malformed (path : String) (flaw : PathFlaw)
  /-- A structured path holds a value that cannot be part of a path. -/
  | wrongKind (found : Value.Kind)
deriving DecidableEq

namespace PathError

def message : PathError → String
  | .empty path => "the given path \"" ++ path ++ "\" is empty"
  | .malformed path flaw => "malformed path \"" ++ path ++ "\": " ++ flaw.message
  | .wrongKind found =>
      "the given path is not valid: found a member of type " ++ found.name

end PathError

end Quill
