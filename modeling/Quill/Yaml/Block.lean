import Quill.Yaml.Cursor

/-!
# Block scalars of YAML texts

Scalars on lines of their own, indented under a mark: literal ones keep their line breaks,
folded ones join lines.
-/

namespace Quill.Yaml

/-- What happens to the line breaks at the end of a block scalar. -/
inductive Chomping where
  | strip
  | clip
  | keep
deriving DecidableEq

/-- What stands behind the mark of a block scalar. -/
structure BlockHeader where
  chomping : Chomping
  /-- The indentation relative to the surrounding block, if it is given. -/
  indent : Option Nat

/-- The chomping of a sign. -/
def chompingOf? (c : Char) : Option Chomping :=
  if c == '+' then some .keep else if c == '-' then some .strip else none

/-- Read the header of a block scalar: a sign and a digit, in either order, each at most once.
The digit zero is refused. -/
def readBlockHeader (c : Cursor) : Option (BlockHeader × Cursor) :=
  let digit? (c : Cursor) : Option (Option Nat × Cursor) :=
    match c.rest with
    | d :: _ =>
        if d == '0' then none
        else if d.isDigit then some (some (d.toNat - '0'.toNat), c.skip 1)
        else some (none, c)
    | [] => some (none, c)
  let sign (c : Cursor) : Chomping × Cursor :=
    match c.rest with
    | s :: _ => match chompingOf? s with
      | some chomping => (chomping, c.skip 1)
      | none => (.clip, c)
    | [] => (.clip, c)
  match c.rest.head?.bind chompingOf? with
  | some chomping => (digit? (c.skip 1)).map fun (n, c) => (⟨chomping, n⟩, c)
  | none =>
      (digit? c).map fun (n, c) =>
        match n with
        | none => (⟨.clip, none⟩, c)
        | some n => let (chomping, c) := sign c; (⟨chomping, some n⟩, c)

/-- Skip the indentation and the empty lines in front of a line of a block scalar, at most `fuel`
of them, and collect the line breaks.  Without a known indentation the deepest line counts. -/
def readBlockBreaks (indent : Option Nat) :
    Nat → Cursor → List Char → Nat → Option (List Char × Nat × Cursor)
  | 0, _, _, _ => none
  | fuel + 1, c, breaks, deepest =>
      let spaces := (c.rest.takeWhile (· == ' ')).length
      let c := c.skip (match indent with
        | none => spaces
        | some n => min spaces (n - c.column))
      let deepest := max deepest c.column
      match c.rest with
      | [] => some (breaks, deepest, c)
      | ch :: rest =>
          if ch == '\t' && (match indent with
            | none => true
            | some n => decide (c.column < n)) then none
          else if isBreak ch then
            readBlockBreaks indent fuel (c.nextLine (afterBreak ch rest))
              (breaks ++ breakText ch) deepest
          else some (breaks, deepest, c)

/-- The lines of a block scalar that have been read. -/
structure BlockText where
  text : List Char
  /-- The line break of the last line. -/
  last : List Char
  /-- The line breaks of the empty lines behind it. -/
  empty : List Char
  /-- Whether the last line started with a blank. -/
  blankLine : Bool

/-- Read the lines of a block scalar, at most `fuel` of them. -/
def readBlockLines (isLiteral : Bool) (indent : Nat) :
    Nat → Cursor → BlockText → Option (BlockText × Cursor)
  | 0, _, _ => none
  | fuel + 1, c, b =>
      if c.column != indent || c.rest.isEmpty then some (b, c)
      else do
        let startsBlank := c.rest.head?.any isBlank
        let joint :=
          if !isLiteral && b.last == ['\n'] && !b.blankLine && !startsBlank then
            (if b.empty.isEmpty then [' '] else [])
          else b.last
        let line := c.rest.takeWhile (!isBreak ·)
        let rest := c.rest.dropWhile (!isBreak ·)
        let (last, after) := match rest with
          | [] => ([], c.moveTo rest)
          | ch :: more => (breakText ch, (c.moveTo rest).nextLine (afterBreak ch more))
        let (empty, _, after) ←
          readBlockBreaks (some indent) (after.rest.length + 1) after [] 0
        readBlockLines isLiteral indent fuel after
          ⟨b.text ++ joint ++ b.empty ++ line, last, empty, startsBlank⟩

/-- Skip blanks and a comment up to the end of the line. -/
def skipToLineEnd (c : Cursor) : Option Cursor :=
  let c := c.skipWhile isBlank
  let c := if c.rest.head? == some '#' then c.skipWhile (!isBreak ·) else c
  if atLineEnd c.rest then some c else none

/-- Read a block scalar, the cursor behind its mark, inside a block indented by `outer`. -/
def readBlock (isLiteral : Bool) (outer : Int) (c : Cursor) : Option (List Char × Cursor) := do
  let (header, c) ← readBlockHeader c
  let c ← skipToLineEnd c
  let c := c.skipBreak
  let given : Option Nat := header.indent.map fun n => (max outer 0).toNat + n
  let (empty, deepest, c) ← readBlockBreaks given (c.rest.length + 1) c [] 0
  let indent := given.getD (max (max deepest (outer + 1).toNat) 1)
  let (b, c) ← readBlockLines isLiteral indent (c.rest.length + 1) c ⟨[], [], empty, false⟩
  let text := match header.chomping with
    | .strip => b.text
    | .clip => b.text ++ b.last
    | .keep => b.text ++ b.last ++ b.empty
  some (text, c)

end Quill.Yaml
