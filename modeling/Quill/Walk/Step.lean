import Quill.Path.Basic
import Quill.Tree.Basic

/-!
# One step along a path

The first segment of a path, resolved against a map: which keys it selects there.
-/

namespace Quill

/-- How the keys of a step were selected. -/
inductive StepKind where
  /-- One literal key. -/
  | literal
  /-- Every key of the map. -/
  | wildcard
  /-- The members of a group. -/
  | group
deriving DecidableEq

/-- Something that a step goes to. -/
inductive StepTarget where
  | key (k : Key)
  /-- A path of its own, resolved against the map of the step. -/
  | path (p : Path)
deriving DecidableEq

/-- The first segment of a path, resolved against a map. -/
structure Step where
  targets : List StepTarget
  kind : StepKind
  /-- The segments behind the step. -/
  rest : Path
deriving DecidableEq

/-- Whether no segments follow. -/
def Step.isLast (s : Step) : Bool := s.rest.isNil

/-- The keys that a key segment selects: the keys of the map for the wildcard, else one key. -/
def Path.selectedKeys (text : String) (t : Tree) : List Key :=
  if text = Path.wildcard then t.keys else [.ofText text]

/-- What the members of a group go to. -/
def Members.targets : Members → List StepTarget
  | .nil => []
  | .key text rest => .key (.ofText text) :: rest.targets
  | .path sub rest => .path sub :: rest.targets

/-- Resolve the first segment of a path; the empty path has none. -/
def Path.step? : Path → Tree → Option Step
  | .nil, _ => none
  | .key text rest, t =>
      some
        { targets := (selectedKeys text t).map .key
          kind := if text = wildcard then .wildcard else .literal
          rest := rest }
  | .group members rest, _ =>
      some { targets := members.targets, kind := .group, rest := rest }

end Quill
