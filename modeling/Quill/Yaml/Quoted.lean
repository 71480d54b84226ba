import Quill.Yaml.Cursor
import Quill.Number.Hex

/-!
# Quoted scalars of YAML texts

Scalars between single quotes, where a quote is written twice, and between double quotes, where
backslashes escape.
-/

namespace Quill.Yaml

/-- The character that a letter behind a backslash stands for. -/
def letterEscape? (c : Char) : Option Char :=
  match c with
  | '0' => some '\x00'
  | 'a' => some '\x07'
  | 'b' => some '\x08'
  | 't' => some '\t'
  | '\t' => some '\t'
  | 'n' => some '\n'
  | 'v' => some '\x0b'
  | 'f' => some '\x0c'
  | 'r' => some '\r'
  | 'e' => some '\x1b'
  | ' ' => some ' '
  | '"' => some '"'
  | '/' => some '/'
  | '\\' => some '\\'
  | 'N' => some '\x85'
  | '_' => some '\xa0'
  | 'L' => some '\u2028'
  | 'P' => some '\u2029'
  | _ => none

/-- The characters of a quoted scalar up to the next gap, the closing quote or an escaped line
break, and the rest. -/
def quotedRun (single : Bool) : List Char → Option (List Char × List Char)
  | [] => some ([], [])
  | '\'' :: '\'' :: rest =>
      if single then (quotedRun single rest).map fun (s, after) => ('\'' :: s, after)
      else (quotedRun single ('\'' :: rest)).map fun (s, after) => ('\'' :: s, after)
  | '\\' :: e :: rest =>
      if single then (quotedRun single (e :: rest)).map fun (s, after) => ('\\' :: s, after)
      else if isBreak e then some ([], '\\' :: e :: rest)
      else
        match letterEscape? e with
        | some ch => (quotedRun single rest).map fun (s, after) => (ch :: s, after)
        | none =>
            match e, rest with
            | 'x', a :: b :: rest => do
                let ch ← Hex.char? [a, b]
                let (s, after) ← quotedRun single rest
                some (ch :: s, after)
            | 'u', a :: b :: c :: d :: rest => do
                let ch ← Hex.char? [a, b, c, d]
                let (s, after) ← quotedRun single rest
                some (ch :: s, after)
            | 'U', a :: b :: c :: d :: f :: g :: h :: i :: rest => do
                let ch ← Hex.char? [a, b, c, d, f, g, h, i]
                let (s, after) ← quotedRun single rest
                some (ch :: s, after)
            | _, _ => none
  | c :: rest =>
      if isBlank c || isBreak c || c == (if single then '\'' else '"') then some ([], c :: rest)
      else if c == '\\' && !single then none
      else (quotedRun single rest).map fun (s, after) => (c :: s, after)

/-- Read runs and gaps of a quoted scalar, at most `fuel` of them; `text` has been read
before. -/
def readQuotedFrom (single : Bool) : Nat → Cursor → List Char → Option (List Char × Cursor)
  | 0, _, _ => none
  | fuel + 1, c, text =>
      if c.atAnyDocumentMark then none
      else do
        let (run, rest) ← quotedRun single c.rest
        let text := text ++ run
        let after := c.moveTo rest
        match rest with
        | [] => none
        | '\\' :: e :: more =>
            if isBreak e && !single then
              let next := after.nextLine (afterBreak e more)
              let (gap, next) ← next.readGap 0 { Gap.empty with broken := true }
              readQuotedFrom single fuel next (text ++ gap.text)
            else none
        | q :: _ =>
            if isBlank q || isBreak q then
              let (gap, next) ← after.readGap 0 Gap.empty
              readQuotedFrom single fuel next (text ++ gap.text)
            else some (text, after.skip 1)

/-- Read a quoted scalar, the cursor behind its opening quote. -/
def readQuoted (single : Bool) (c : Cursor) : Option (List Char × Cursor) :=
  readQuotedFrom single (c.rest.length + 1) c []

end Quill.Yaml
