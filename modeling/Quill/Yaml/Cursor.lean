/-!
# Reading positions in YAML texts

The rest of a text together with its line and column, the classes of characters that structure
a text, and the reading of line breaks.
-/

namespace Quill.Yaml

/-- Whether a character is a space or a tab. -/
def isBlank (c : Char) : Bool :=
  c == ' ' || c == '\t'

/-- Whether a character ends a line. -/
def isBreak (c : Char) : Bool :=
  c == '\n' || c == '\r' || c == '\x85' || c == '\u2028' || c == '\u2029'

/-- Whether a text is at its end or at a line break. -/
def atLineEnd : List Char → Bool
  | [] => true
  | c :: _ => isBreak c

/-- Whether a text is at its end, at a blank or at a line break. -/
def atGap : List Char → Bool
  | [] => true
  | c :: _ => isBlank c || isBreak c

/-- Whether a character can occur in the name of an anchor or a tag handle. -/
def isWordChar (c : Char) : Bool :=
  c.isAlphanum || c == '_' || c == '-'

/-- Whether a character may occur in a text at all. -/
def isAllowed (c : Char) : Bool :=
  let n := c.toNat
  c == '\t' || c == '\n' || c == '\r' || (0x20 ≤ n && n ≤ 0x7e) || n == 0x85
    || (0xa0 ≤ n && n ≤ 0xd7ff) || (0xe000 ≤ n && n ≤ 0xfffd) || 0x10000 ≤ n

/-- What a line break contributes to a scalar: a line feed, except for the two Unicode
separators, which stand for themselves. -/
def breakText (c : Char) : List Char :=
  if c == '\u2028' || c == '\u2029' then [c] else ['\n']

/-- The rest of a text behind a line break that starts with `c`; a carriage return and a line
feed are one break. -/
def afterBreak (c : Char) (rest : List Char) : List Char :=
  match rest with
  | '\n' :: more => if c == '\r' then more else rest
  | _ => rest

theorem afterBreak_length (c : Char) (rest : List Char) :
    (afterBreak c rest).length ≤ rest.length := by
  unfold afterBreak
  split
  · split <;> simp
  · simp

/-- The rest of a text and where it starts. -/
structure Cursor where
  rest : List Char
  line : Nat
  column : Nat
  /-- The number of characters before. -/
  index : Nat

namespace Cursor

/-- The start of a text. -/
def start (s : List Char) : Cursor := ⟨s, 0, 0, 0⟩

/-- Skip `n` characters of the line. -/
def skip (n : Nat) (c : Cursor) : Cursor :=
  ⟨c.rest.drop n, c.line, c.column + n, c.index + n⟩

/-- Skip the characters of the line before `rest`, which is a part of the cursor's rest. -/
def moveTo (rest : List Char) (c : Cursor) : Cursor :=
  let n := c.rest.length - rest.length
  ⟨rest, c.line, c.column + n, c.index + n⟩

/-- The start of the next line, whose text is `rest`. -/
def nextLine (rest : List Char) (c : Cursor) : Cursor :=
  ⟨rest, c.line + 1, 0, c.index + (c.rest.length - rest.length)⟩

/-- Skip a line break, if the cursor is at one. -/
def skipBreak (c : Cursor) : Cursor :=
  match c.rest with
  | [] => c
  | ch :: rest => if isBreak ch then c.nextLine (afterBreak ch rest) else c

/-- Skip the characters of the line that satisfy `p`, which no line break does. -/
def skipWhile (p : Char → Bool) (c : Cursor) : Cursor :=
  c.moveTo (c.rest.dropWhile p)

/-- Whether the cursor is at a line of its own of the given mark, `---` or `...`. -/
def atDocumentMark (mark : Char) (c : Cursor) : Bool :=
  c.column == 0 && [mark, mark, mark].isPrefixOf c.rest && atGap (c.rest.drop 3)

/-- Whether the cursor is at a mark between documents. -/
def atAnyDocumentMark (c : Cursor) : Bool :=
  c.atDocumentMark '-' || c.atDocumentMark '.'

end Cursor

/-- The blanks and line breaks between two runs of characters of a scalar. -/
structure Gap where
  /-- The blanks, as long as there is no line break. -/
  blanks : List Char
  /-- The first line break. -/
  first : List Char
  /-- The further line breaks. -/
  further : List Char
  /-- Whether there is a line break. -/
  broken : Bool

namespace Gap

def empty : Gap := ⟨[], [], [], false⟩

/-- What the gap contributes to the scalar: its blanks if it lies within a line; else a space
for a single line break, and the further breaks for several. -/
def text (g : Gap) : List Char :=
  if !g.broken then g.blanks
  else if g.first == ['\n'] then (if g.further.isEmpty then [' '] else g.further)
  else g.first ++ g.further

/-- Take a blank. -/
def takeBlank (ch : Char) (g : Gap) : Gap :=
  if g.broken then g else { g with blanks := g.blanks ++ [ch] }

/-- Take a line break. -/
def takeBreak (ch : Char) (g : Gap) : Gap :=
  if g.broken then { g with further := g.further ++ breakText ch }
  else { g with blanks := [], first := breakText ch, broken := true }

end Gap

/-- Read blanks and line breaks.  A tab in the indentation of a line before `indent` is
refused. -/
def Cursor.readGap (indent : Nat) (c : Cursor) (g : Gap) : Option (Gap × Cursor) :=
  match h : c.rest with
  | [] => some (g, c)
  | ch :: rest =>
      if isBlank ch then
        if g.broken && c.column < indent && ch == '\t' then none
        else readGap indent ⟨rest, c.line, c.column + 1, c.index + 1⟩ (g.takeBlank ch)
      else if isBreak ch then
        readGap indent (c.nextLine (afterBreak ch rest)) (g.takeBreak ch)
      else some (g, c)
termination_by c.rest.length
decreasing_by
  · simp only [h, List.length_cons]
    omega
  · have := afterBreak_length ch rest
    simp only [h, nextLine, List.length_cons]
    omega

end Quill.Yaml
