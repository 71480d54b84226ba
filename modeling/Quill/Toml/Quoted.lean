import Quill.Number.Hex
import Quill.Number.Decimal

/-!
# Strings of TOML texts

Strings stand between double quotes, with escapes, or between single quotes, as they are; three
quotes let a string run over several lines.  Writing chooses the first form that shows the
string without escapes, if there is one.
-/

namespace Quill.Toml

/-- Whether a character may stand in a text other than as a line break. -/
def isPlain (c : Char) : Bool :=
  c == '\t' || (' ' ≤ c && c != '\x7f')

/-- Whether a character is a blank inside a line. -/
def isSpace (c : Char) : Bool :=
  c == ' ' || c == '\t'

/-- A text behind a line break at its front. -/
def dropBreak? : List Char → Option (List Char)
  | '\n' :: rest => some rest
  | '\r' :: '\n' :: rest => some rest
  | _ => none

/-- The character that a letter behind a backslash stands for. -/
def shortEscape? : Char → Option Char
  | 'b' => some '\x08'
  | 't' => some '\t'
  | 'n' => some '\n'
  | 'f' => some '\x0c'
  | 'r' => some '\r'
  | '"' => some '"'
  | '\\' => some '\\'
  | _ => none

/-- The contents of a string and what follows it. -/
abbrev Read := Option (List Char × List Char)

/-- Put a character in front of the contents read. -/
def Read.push (c : Char) (r : Read) : Read :=
  r.map fun (s, rest) => (c :: s, rest)

/-- Put the character that a numeral encodes in front of the contents read. -/
def Read.pushCode (ds : List Char) (r : Read) : Read :=
  (Hex.char? ds).bind fun c => r.push c

/-- Read the rest of a string between single quotes. -/
def literal : List Char → Read
  | [] => none
  | '\'' :: rest => some ([], rest)
  | c :: rest => if isPlain c then (literal rest).push c else none

/-- Read the rest of a string between double quotes. -/
def basic : List Char → Read
  | [] => none
  | '"' :: rest => some ([], rest)
  | '\\' :: 'u' :: a :: b :: c :: d :: rest => (basic rest).pushCode [a, b, c, d]
  | '\\' :: 'U' :: a :: b :: c :: d :: e :: f :: g :: h :: rest =>
      (basic rest).pushCode [a, b, c, d, e, f, g, h]
  | '\\' :: e :: rest => (shortEscape? e).bind fun c => (basic rest).push c
  | c :: rest => if isPlain c then (basic rest).push c else none

/-- End a string of several lines behind three quotes: up to two more belong to it. -/
def closeBlock (quote : Char) : List Char → Read
  | a :: b :: rest =>
      if a = quote then
        if b = quote then some ([quote, quote], rest) else some ([quote], b :: rest)
      else some ([], a :: b :: rest)
  | [a] => if a = quote then some ([quote], []) else some ([], [a])
  | [] => some ([], [])

/-- Read the rest of a string of several lines between single quotes. -/
def literalBlock : List Char → Read
  | [] => none
  | '\'' :: '\'' :: '\'' :: rest => closeBlock '\'' rest
  | '\n' :: rest => (literalBlock rest).push '\n'
  | '\r' :: '\n' :: rest => (literalBlock rest).push '\n'
  | c :: rest => if isPlain c then (literalBlock rest).push c else none

/-- Whether nothing but blanks comes before the next line break. -/
def endsLine (s : List Char) : Bool :=
  (dropBreak? (s.dropWhile isSpace)).isSome

/-- Read the rest of a string of several lines between double quotes.  A backslash at the end of
a line joins it with the next one that is not blank; the first argument tells that the blanks
behind it are being passed over. -/
def basicBlock : Bool → List Char → Read
  | _, [] => none
  | joining, '\n' :: rest =>
      if joining then basicBlock true rest else (basicBlock false rest).push '\n'
  | joining, '\r' :: '\n' :: rest =>
      if joining then basicBlock true rest else (basicBlock false rest).push '\n'
  | _, '"' :: '"' :: '"' :: rest => closeBlock '"' rest
  | _, '\\' :: 'u' :: a :: b :: c :: d :: rest => (basicBlock false rest).pushCode [a, b, c, d]
  | _, '\\' :: 'U' :: a :: b :: c :: d :: e :: f :: g :: h :: rest =>
      (basicBlock false rest).pushCode [a, b, c, d, e, f, g, h]
  | joining, c :: rest =>
      if joining && isSpace c then basicBlock true rest
      else if c = '\\' then
        if endsLine rest then basicBlock true rest
        else
          match rest with
          | [] => none
          | e :: rest => (shortEscape? e).bind fun c => (basicBlock false rest).push c
      else if isPlain c then (basicBlock false rest).push c
      else none

/-- Leave out a line break at the front. -/
def skipBreak (s : List Char) : List Char :=
  (dropBreak? s).getD s

/-- Read a string on one line. -/
def lineString : List Char → Read
  | '"' :: rest => basic rest
  | '\'' :: rest => literal rest
  | _ => none

/-- Read a string of any form.  A line break right behind the opening quotes is left out. -/
def anyString : List Char → Read
  | '"' :: '"' :: '"' :: rest => basicBlock false (skipBreak rest)
  | '\'' :: '\'' :: '\'' :: rest => literalBlock (skipBreak rest)
  | s => lineString s

/-- The length of the longest run of a character. -/
def longestRun (c : Char) (s : List Char) : Nat :=
  let (_, longest) := s.foldl (fun (run, longest) x =>
    if x = c then (run + 1, max longest (run + 1)) else (0, longest)) (0, 0)
  longest

/-- Whether a character cannot be shown without an escape; tabs are escaped where escapes are
possible, and shown elsewhere. -/
def isControl (c : Char) : Bool :=
  (c < ' ' && c != '\t' && c != '\n') || c == '\x7f'

/-- Four hexadecimal digits of a number. -/
def code4 (n : Nat) : List Char :=
  let ds := (Nat.toDigits 16 n).map Char.toUpper
  List.replicate (4 - ds.length) '0' ++ ds

/-- A character between double quotes. -/
def escaped (c : Char) : List Char :=
  if c = '\x08' then ['\\', 'b']
  else if c = '\t' then ['\\', 't']
  else if c = '\n' then ['\\', 'n']
  else if c = '\x0c' then ['\\', 'f']
  else if c = '\r' then ['\\', 'r']
  else if c = '"' then ['\\', '"']
  else if c = '\\' then ['\\', '\\']
  else if isControl c then '\\' :: 'u' :: code4 c.toNat
  else [c]

/-- The contents of a string of several lines between double quotes; every third quote in a row
is escaped. -/
def escapedBlock (run : Nat) : List Char → List Char
  | [] => []
  | '\n' :: rest => '\n' :: escapedBlock 0 rest
  | '"' :: rest =>
      if run = 2 then '\\' :: '"' :: escapedBlock 0 rest else '"' :: escapedBlock (run + 1) rest
  | c :: rest => escaped c ++ escapedBlock 0 rest

/-- Put text between three quotes on either side, on lines of its own if it has several. -/
def block (quote : Char) (hasBreak : Bool) (contents : List Char) : List Char :=
  let quotes := [quote, quote, quote]
  quotes ++ (if hasBreak then ['\n'] else []) ++ contents ++ quotes

/-- The text of a string. -/
def quoted (s : List Char) : List Char :=
  let hasBreak := s.contains '\n'
  let hasControl := s.any isControl
  let hasEscape := s.contains '\\'
  let doubles := longestRun '"' s
  let singles := longestRun '\'' s
  if !hasControl && !hasEscape && doubles == 0 && !hasBreak then
    '"' :: s.flatMap escaped ++ ['"']
  else if !hasControl && singles == 0 && !hasBreak then '\'' :: s ++ ['\'']
  else if !hasControl && !hasEscape && doubles ≤ 2 then block '"' hasBreak (escapedBlock 0 s)
  else if !hasControl && singles ≤ 2 then block '\'' hasBreak s
  else if hasBreak then block '"' true (escapedBlock 0 s)
  else '"' :: s.flatMap escaped ++ ['"']

end Quill.Toml
