import Quill.Json.Basic

/-!
# Writing JSON

JSON texts on one line, or with every item and field on a line of its own.
-/

namespace Quill.Json

/-- The digit of a number below sixteen, in lower case. -/
def hexDigit (n : Nat) : Char :=
  if n < 10 then Char.ofNat ('0'.toNat + n) else Char.ofNat ('a'.toNat + (n - 10))

/-- The text of a character inside a string: quotes, backslashes and control characters are
escaped, everything else stands for itself. -/
def escape (c : Char) : List Char :=
  if c = '"' then ['\\', '"']
  else if c = '\\' then ['\\', '\\']
  else if c = '\n' then ['\\', 'n']
  else if c = '\r' then ['\\', 'r']
  else if c = '\t' then ['\\', 't']
  else if c = '\x08' then ['\\', 'b']
  else if c = '\x0c' then ['\\', 'f']
  else if c.toNat < 32 then
    ['\\', 'u', '0', '0', hexDigit (c.toNat / 16), hexDigit (c.toNat % 16)]
  else [c]

/-- A text between quotes. -/
def quote (s : List Char) : List Char :=
  '"' :: s.flatMap escape ++ ['"']

/-- How a text is laid out: on one line, or indented by a number of spaces for each level. -/
abbrev Indent := Option Nat

/-- What stands in front of an item or a closing bracket at the given level. -/
def lineBreak (indent : Indent) (level : Nat) : List Char :=
  match indent with
  | none => []
  | some n => '\n' :: List.replicate (n * level) ' '

/-- What stands between a name and its value. -/
def nameMark (indent : Indent) : List Char :=
  match indent with
  | none => [':']
  | some _ => [':', ' ']

mutual

/-- The text of a JSON value, itself at the given level. -/
def write (indent : Indent) (level : Nat) : Json → List Char
  | .null => "null".toList
  | .bool b => if b then "true".toList else "false".toList
  | .int i => Decimal.ofInt i.toInt
  | .float x => FloatLayout.json.text x
  | .string s => quote s.toList
  | .array [] => ['[', ']']
  | .array (j :: rest) =>
      '[' :: lineBreak indent (level + 1) ++ write indent (level + 1) j
        ++ writeItems indent (level + 1) rest ++ lineBreak indent level ++ [']']
  | .object [] => ['\x7b', '\x7d']
  | .object ((name, j) :: rest) =>
      '\x7b' :: lineBreak indent (level + 1)
        ++ quote name.toList ++ nameMark indent ++ write indent (level + 1) j
        ++ writeFields indent (level + 1) rest ++ lineBreak indent level ++ ['\x7d']

/-- The items behind the first, each after a comma. -/
def writeItems (indent : Indent) (level : Nat) : List Json → List Char
  | [] => []
  | j :: rest =>
      ',' :: lineBreak indent level ++ write indent level j ++ writeItems indent level rest

/-- The fields behind the first, each after a comma. -/
def writeFields (indent : Indent) (level : Nat) : List (String × Json) → List Char
  | [] => []
  | (name, j) :: rest =>
      ',' :: lineBreak indent level ++ quote name.toList ++ nameMark indent
        ++ write indent level j ++ writeFields indent level rest

end

/-- The text of a JSON value. -/
def toText (indent : Indent) (j : Json) : String :=
  String.ofList (j.write indent 0)

end Quill.Json
