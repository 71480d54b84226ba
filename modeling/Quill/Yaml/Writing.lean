import Quill.Json.Basic
import Quill.Yaml.Cursor
import Quill.Yaml.Scalar

/-!
# Writing YAML

Documents in block style, indented by two spaces; the items of a sequence under a key stand at
the column of the key.  Strings are written without quotes wherever they read back as the same
string.
-/

namespace Quill.Yaml

/-- The columns by which a block is indented. -/
def indentWidth : Nat := 2

/-- Whether a character is written as it is. -/
def isPrintable (c : Char) : Bool :=
  let n := c.toNat
  n == 0x0a || (0x20 ≤ n && n ≤ 0x7e) || (0xa0 ≤ n && n ≤ 0xd7ff)
    || (0xe000 ≤ n && n ≤ 0xfffd && n != 0xfeff) || 0x10000 ≤ n

/-- How a string is written. -/
inductive Style where
  | plain
  | single
  | double
  | literal
deriving DecidableEq

/-- Whether some two neighbours in a list satisfy a relation. -/
def anyNeighbours (r : Char → Char → Bool) : List Char → Bool
  | a :: b :: rest => r a b || anyNeighbours r (b :: rest)
  | _ => false

/-- Whether a text starts with three times the same given character. -/
def startsWithThree (c : Char) (s : List Char) : Bool :=
  [c, c, c].isPrefixOf s

/-- Whether a character makes a text something else than a string when it stands in front. -/
def isLeadingIndicator (c : Char) : Bool :=
  "#,[]\x7b\x7d&*!|>'\"%@\x60".toList.contains c

/-- Whether punctuation makes a text something else than a string: an indicator in front, a
dash, question mark or colon before a gap in front, a colon before a gap inside, or a hash sign
behind a gap. -/
def hasIndicator (s : List Char) : Bool :=
  startsWithThree '-' s || startsWithThree '.' s
    || (match s with
      | [] => false
      | c :: rest =>
          isLeadingIndicator c || ((c == '?' || c == '-') && atGap rest))
    || s.getLast? == some ':'
    || anyNeighbours (fun a b => a == ':' && atGap [b]) s
    || anyNeighbours (fun a b => atGap [a] && b == '#') s

/-- What the characters of a string allow. -/
structure StyleLimits where
  plain : Bool
  single : Bool
  literal : Bool

/-- The styles that a non-empty string can be written in without being changed. -/
def styleLimits (s : List Char) : StyleLimits :=
  let isSpecial := s.any (!isPrintable ·)
  let hasBreak := s.any isBreak
  let spaceBreak := anyNeighbours (fun a b => a == ' ' && isBreak b) s
  let breakSpace := anyNeighbours (fun a b => isBreak a && b == ' ') s
  let edge (c : Option Char) : Bool := c.any fun c => c == ' ' || isBreak c
  { plain := !(hasIndicator s || isSpecial || hasBreak || edge s.head? || edge s.getLast?)
    single := !(isSpecial || spaceBreak || breakSpace)
    literal := !(isSpecial || spaceBreak || s.getLast? == some ' ') }

/-- The style that is asked for: literal for several lines, quotes for a text that would read as
something else than a string or is a number with leading zeros, and no quotes otherwise. -/
def wantedStyle (s : List Char) : Style :=
  if s.contains '\n' then .literal
  else
    match Scalar.ofPlain s with
    | .string _ => if Scalar.hasLeadingZero s then .single else .plain
    | _ => .single

/-- The style of a string; `isKey` where it has to stay on its line. -/
def styleOf (isKey : Bool) (s : List Char) : Style :=
  if s.isEmpty then .single
  else
    let limits := styleLimits s
    let quotes : Style := if limits.single then .single else .double
    match wantedStyle s with
    | .literal => if limits.literal && !isKey then .literal else .double
    | .plain => if limits.plain then .plain else quotes
    | _ => quotes

/-- The digit of a number below sixteen, in upper case. -/
def upperHexDigit (n : Nat) : Char :=
  if n < 10 then Char.ofNat ('0'.toNat + n) else Char.ofNat ('A'.toNat + (n - 10))

/-- The last `width` hexadecimal digits of a number. -/
def hexDigits : Nat → Nat → List Char
  | 0, _ => []
  | width + 1, n => hexDigits width (n / 16) ++ [upperHexDigit (n % 16)]

/-- A character between double quotes. -/
def escape (c : Char) : List Char :=
  if c == '"' then ['\\', '"']
  else if c == '\\' then ['\\', '\\']
  else if isPrintable c && !isBreak c then [c]
  else
    match c with
    | '\x00' => ['\\', '0']
    | '\x07' => ['\\', 'a']
    | '\x08' => ['\\', 'b']
    | '\t' => ['\\', 't']
    | '\n' => ['\\', 'n']
    | '\x0b' => ['\\', 'v']
    | '\x0c' => ['\\', 'f']
    | '\r' => ['\\', 'r']
    | '\x1b' => ['\\', 'e']
    | '\x85' => ['\\', 'N']
    | '\u2028' => ['\\', 'L']
    | '\u2029' => ['\\', 'P']
    | c =>
        let n := c.toNat
        if n < 0x100 then '\\' :: 'x' :: hexDigits 2 n
        else if n < 0x10000 then '\\' :: 'u' :: hexDigits 4 n
        else '\\' :: 'U' :: hexDigits 8 n

def spaces (n : Nat) : List Char := List.replicate n ' '

/-- Characters on lines that start with the given number of spaces; `atStart` tells whether a
line starts here. -/
def indented (column : Nat) : Bool → List Char → List Char
  | _, [] => []
  | atStart, c :: rest =>
      if isBreak c then c :: indented column true rest
      else (if atStart then spaces column else []) ++ c :: indented column false rest

/-- What stands behind the mark of a literal scalar: the indentation if the text starts with
white space, and the treatment of the line breaks at its end. -/
def literalHints (s : List Char) : List Char :=
  let indentation := if s.head?.any (fun c => c == ' ' || isBreak c) then ['2'] else []
  let chomping := match s.reverse with
    | [] => ['-']
    | [c] => if isBreak c then ['+'] else ['-']
    | c :: d :: _ => if !isBreak c then ['-'] else if isBreak d then ['+'] else []
  indentation ++ chomping

/-- The text of a string inside a block at the given column. -/
def stringText (isKey : Bool) (column : Nat) (s : List Char) : List Char :=
  match styleOf isKey s with
  | .plain => s
  | .single =>
      let doubled := s.flatMap fun c => if c == '\'' then ['\'', '\''] else [c]
      let closing := if s.getLast?.any isBreak then spaces (column + indentWidth) else []
      '\'' :: indented (column + indentWidth) false doubled ++ closing ++ ['\'']
  | .double => '"' :: s.flatMap escape ++ ['"']
  | .literal => '|' :: literalHints s ++ '\n' :: indented (column + indentWidth) true s

/-- End the line, unless the text has ended it. -/
def endLine (s : List Char) : List Char :=
  if s.getLast?.any isBreak then s else s ++ ['\n']

/-- The longest key, in bytes, that is written in front of a colon. -/
def maxSimpleKey : Nat := 128

/-- Whether a key is written in front of a colon and not behind a question mark. -/
def isSimpleKey (name : String) : Bool :=
  name.utf8ByteSize ≤ maxSimpleKey && !name.toList.any isBreak

/-- The text of a scalar in a block at the given column; collections without items count as
scalars. -/
def scalarText (column : Nat) : Json → List Char
  | .null => "null".toList
  | .bool b => if b then "true".toList else "false".toList
  | .int i => Decimal.ofInt i.toInt
  | .float x => FloatLayout.yaml.text x
  | .string s => stringText false column s.toList
  | .array _ => ['[', ']']
  | .object _ => ['\x7b', '\x7d']

mutual

/-- The lines of a collection at the given column, every line indented. -/
def writeBlock (column : Nat) : Json → List Char
  | .array items => writeItems column items
  | .object fields => writeFields column fields
  | j => spaces column ++ endLine (scalarText column j)

/-- The items of a sequence, each behind a dash.  A collection starts on the line of the
dash. -/
def writeItems (column : Nat) : List Json → List Char
  | [] => []
  | j :: rest =>
      let text := match j with
        | .array (_ :: _) => (writeBlock (column + indentWidth) j).drop (column + indentWidth)
        | .object (_ :: _) => (writeBlock (column + indentWidth) j).drop (column + indentWidth)
        | j => endLine (scalarText column j)
      spaces column ++ '-' :: ' ' :: text ++ writeItems column rest

/-- The entries of a mapping.  A key too long for its line stands behind a question mark, and
its value behind a colon on the next line. -/
def writeFields (column : Nat) : List (String × Json) → List Char
  | [] => []
  | (name, j) :: rest =>
      let entry :=
        if isSimpleKey name then
          spaces column ++ stringText true column name.toList ++ ':' ::
            match j with
            | .array (_ :: _) => '\n' :: writeBlock column j
            | .object (_ :: _) => '\n' :: writeBlock (column + indentWidth) j
            | j => ' ' :: endLine (scalarText column j)
        else
          spaces column ++ '?' :: ' ' :: endLine (stringText false column name.toList)
            ++ spaces column ++ ':' :: ' ' ::
            match j with
            | .array (_ :: _) => (writeBlock (column + indentWidth) j).drop (column + indentWidth)
            | .object (_ :: _) => (writeBlock (column + indentWidth) j).drop (column + indentWidth)
            | j => endLine (scalarText column j)
      entry ++ writeFields column rest

end

/-- The YAML text of a JSON value. -/
def toText (j : Json) : String :=
  String.ofList <|
    match j with
    | .array (_ :: _) => writeBlock 0 j
    | .object (_ :: _) => writeBlock 0 j
    | j => endLine (scalarText 0 j)

end Quill.Yaml
