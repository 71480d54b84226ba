import Quill.Toml.Quoted
import Quill.Toml.Scalar

/-!
# Reading TOML texts

A text is a series of lines, each with an entry or the header of a table.  The readers take
characters from the front of the text and fail where it is not well formed.
-/

namespace Quill.Toml

/-- A reader of characters. -/
abbrev Reader := StateT (List Char) Option

/-- The next character. -/
def peek? : Reader (Option Char) := do
  return (← get).head?

/-- Pass over a given character. -/
def expect (c : Char) : Reader Unit := fun s =>
  (after? c s).map fun rest => ((), rest)

/-- Read the longest run of characters with a property. -/
def takeRun (p : Char → Bool) : Reader (List Char) :=
  modifyGet fun s => s.span p

/-- Pass over blanks inside a line. -/
def skipSpaces : Reader Unit :=
  modify fun s => s.dropWhile isSpace

/-- A text without the blanks, line breaks and comments at its front; the flag tells that it
starts inside a comment. -/
def dropGap (inComment : Bool) : List Char → List Char
  | [] => []
  | '\n' :: rest => dropGap false rest
  | '\r' :: '\n' :: rest => dropGap false rest
  | c :: rest =>
      if inComment then
        if isPlain c then dropGap true rest else c :: rest
      else if isSpace c then dropGap false rest
      else if c = '#' then dropGap true rest
      else c :: rest

/-- Pass over blanks, line breaks and comments. -/
def skipGap : Reader Unit :=
  modify (dropGap false)

/-- Pass over the end of a line, with the blanks and the comment in front of it. -/
def endLine : Reader Unit := fun s =>
  let s := s.dropWhile isSpace
  let s := if s.head? = some '#' then s.dropWhile isPlain else s
  if s.isEmpty then some ((), [])
  else (dropBreak? s).map fun rest => ((), rest)

/-- Whether a character may stand in a key without quotes. -/
def isKeyChar (c : Char) : Bool :=
  c.isAlphanum || c == '-' || c == '_'

/-- Read a key without dots. -/
def simpleKey : Reader String := fun s =>
  match s with
  | '"' :: _ => (lineString s).map fun (k, rest) => (String.ofList k, rest)
  | '\'' :: _ => (lineString s).map fun (k, rest) => (String.ofList k, rest)
  | _ =>
      let (k, rest) := s.span isKeyChar
      if k.isEmpty then none else some (String.ofList k, rest)

/-- Read keys between dots, at most as many as the first argument tells; the last one stands
apart from the others. -/
def dottedKey : Nat → Reader (List String × String)
  | 0 => failure
  | n + 1 => do
      skipSpaces
      let key ← simpleKey
      skipSpaces
      if (← peek?) = some '.' then
        expect '.'
        let (path, last) ← dottedKey n
        return (key :: path, last)
      else return ([], key)

/-- Read a key of any number of dots. -/
def key : Reader (List String × String) := do
  dottedKey ((← get).length + 1)

/-- Whether a character can occur in a number, a truth value, a date or a time. -/
def isWordChar (c : Char) : Bool :=
  c.isAlphanum || c == '+' || c == '-' || c == '_' || c == '.' || c == ':'

/-- Read a word.  A date goes on behind a blank if more of a word follows there. -/
def word : Reader (List Char) := do
  let first ← takeRun isWordChar
  let rest ← get
  match rest with
  | ' ' :: more =>
      if skipDate? first == some [] ∧ more.head?.any isWordChar then
        set more
        let time ← takeRun isWordChar
        return first ++ ' ' :: time
      else return first
  | _ => return first

/-- Read the items of an array up to its end, at most as many as the last argument tells. -/
def arrayItems (item : Reader Toml) : Nat → Reader (List Toml)
  | 0 => failure
  | n + 1 => do
      skipGap
      if (← peek?) = some ']' then
        expect ']'
        return []
      let first ← item
      skipGap
      if (← peek?) = some ',' then
        expect ','
        let rest ← arrayItems item n
        return first :: rest
      else
        expect ']'
        return [first]

/-- Read an entry whose value the given reader reads. -/
def entryWith (value : Reader Toml) : Reader (List String × String × Toml) := do
  let (path, last) ← key
  expect '='
  skipSpaces
  return (path, last, ← value)

/-- Read entries between commas into a table up to a brace, at most as many as the first number
tells. -/
def tableEntries (value : Reader Toml) : Nat → Entries → Reader Entries
  | 0, _ => failure
  | n + 1, es => do
      let (path, last, v) ← entryWith value
      let es ← (putValue path last v .inline es : Option Entries)
      skipSpaces
      if (← peek?) = some ',' then
        expect ','
        tableEntries value n es
      else
        expect '\x7d'
        return es

/-- Read a table between braces. -/
def inlineTable (value : Reader Toml) : Reader Toml := do
  expect '\x7b'
  skipSpaces
  if (← peek?) = some '\x7d' then
    expect '\x7d'
    return .table .inline []
  else return .table .inline (← tableEntries value ((← get).length + 1) [])

/-- Read a string or a word. -/
def plainValue : Reader Toml := fun s =>
  if s.head? = some '"' ∨ s.head? = some '\'' then
    (anyString s).map fun (t, rest) => (.string (String.ofList t), rest)
  else
    let read : Reader Toml := do
      let w ← word
      (scalar? w : Option Toml)
    read s

/-- Read a value; the argument bounds the nesting of arrays and tables. -/
def value : Nat → Reader Toml
  | 0 => plainValue
  | depth + 1 => do
      let next ← peek?
      if next = some '[' then
        expect '['
        return .array (← arrayItems (value depth) ((← get).length + 1))
      else if next = some '\x7b' then inlineTable (value depth)
      else plainValue

/-- The deepest nesting of arrays and tables in a value. -/
def maxNesting : Nat := 79

/-- Read a header or an entry. -/
def statement : Reader Statement := do
  match ← get with
  | '[' :: '[' :: rest => do
      set rest
      let (path, last) ← key
      expect ']'
      expect ']'
      return .element path last
  | '[' :: rest => do
      set rest
      let (path, last) ← key
      expect ']'
      return .table path last
  | _ => do
      let (path, last, v) ← entryWith (value maxNesting)
      return .entry path last v

/-- Read lines up to the end of the text, at most as many as the argument tells. -/
def statements : Nat → Reader (List Statement)
  | 0 => failure
  | n + 1 => do
      skipGap
      if (← get).isEmpty then return []
      else
        let first ← statement
        endLine
        let rest ← statements n
        return first :: rest

/-- A text without a byte order mark. -/
def dropMark : List Char → List Char
  | '\ufeff' :: rest => rest
  | s => s

/-- The entries of a TOML text. -/
def ofText? (s : String) : Option Entries := do
  let text := dropMark s.toList
  let (lines, _) ← (statements (text.length + 1)).run text
  build lines [] []

end Quill.Toml
