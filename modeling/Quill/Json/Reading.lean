import Quill.Json.Token

/-!
# Reading JSON

The tokens of a text are taken one by one, with a stack of the containers that are still open.
A text holds exactly one value; containers nest at most 127 deep.
-/

namespace Quill.Json

/-- A container that is still open. -/
inductive Frame where
  /-- An array with its items so far, the last one first. -/
  | array (items : List Json)
  /-- An object with its fields so far and the name whose value comes next. -/
  | object (fields : List (String × Json)) (name : String)

/-- What may come next. -/
inductive Expected where
  | value
  /-- A value or the end of the array just opened. -/
  | firstItem
  /-- A name or the end of the object just opened. -/
  | firstName (fields : List (String × Json))
  | name (fields : List (String × Json))
  | colon (fields : List (String × Json)) (name : String)
  /-- A comma or the end of the innermost container. -/
  | more
  /-- The end of the text, whose value this is. -/
  | done (j : Json)

/-- The containers still open, the innermost first, and what may come next. -/
structure State where
  open_ : List Frame
  expected : Expected

/-- The greatest number of containers open at a time. -/
def maxDepth : Nat := 127

/-- Set a field: in place if the name is there, at the end if not. -/
def setField : List (String × Json) → String → Json → List (String × Json)
  | [], name, j => [(name, j)]
  | (n, i) :: rest, name, j =>
      if n = name then (n, j) :: rest else (n, i) :: setField rest name j

/-- Take a complete value. -/
def deliver (j : Json) : List Frame → State
  | [] => ⟨[], .done j⟩
  | .array items :: rest => ⟨.array (j :: items) :: rest, .more⟩
  | .object fields name :: rest => ⟨.object (setField fields name j) name :: rest, .more⟩

/-- Take a token that starts a value. -/
def startValue (frames : List Frame) : Token → Option State
  | .string s => some (deliver (.string s) frames)
  | .scalar j => some (deliver j frames)
  | .openArray =>
      if frames.length < maxDepth then some ⟨.array [] :: frames, .firstItem⟩ else none
  | .openObject =>
      if frames.length < maxDepth then some ⟨frames, .firstName []⟩ else none
  | _ => none

/-- Take the token behind a value. -/
def afterValue (frames : List Frame) (t : Token) : Option State :=
  match frames, t with
  | .array _ :: _, .comma => some ⟨frames, .value⟩
  | .array items :: rest, .closeArray => some (deliver (.array items.reverse) rest)
  | .object fields _ :: rest, .comma => some ⟨rest, .name fields⟩
  | .object fields _ :: rest, .closeObject => some (deliver (.object fields) rest)
  | _, _ => none

/-- Take one token. -/
def step (s : State) (t : Token) : Option State :=
  match s.expected, t with
  | .value, t => startValue s.open_ t
  | .firstItem, .closeArray => afterValue s.open_ .closeArray
  | .firstItem, t => startValue s.open_ t
  | .firstName fields, .closeObject => some (deliver (.object fields) s.open_)
  | .firstName fields, .string name => some ⟨s.open_, .colon fields name⟩
  | .name fields, .string name => some ⟨s.open_, .colon fields name⟩
  | .colon fields name, .colon => some ⟨.object fields name :: s.open_, .value⟩
  | .more, t => afterValue s.open_ t
  | _, _ => none

/-- The value of a list of tokens. -/
def ofTokens? (ts : List Token) : Option Json := do
  let s ← ts.foldlM step ⟨[], .value⟩
  match s.expected with
  | .done j => some j
  | _ => none

/-- The value of a JSON text. -/
def ofText? (s : String) : Option Json :=
  (scan? s.toList).bind ofTokens?

end Quill.Json
