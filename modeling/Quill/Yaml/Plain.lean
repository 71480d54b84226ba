import Quill.Yaml.Cursor

/-!
# Plain scalars of YAML texts

Scalars without quotes.  They end at a colon before a gap, at a comment and, in a flow
collection, at its punctuation; they may go on over lines that are indented deeply enough.
-/

namespace Quill.Yaml

/-- The characters that end a plain scalar inside a flow collection. -/
def isFlowPunctuation (c : Char) : Bool :=
  c == ',' || c == '[' || c == ']' || c == '\x7b' || c == '\x7d'

/-- The characters of a plain scalar up to the next gap or the end of the scalar, and the rest.
Inside a flow collection a colon directly before punctuation is refused. -/
def plainRun (inFlow : Bool) : List Char → Option (List Char × List Char)
  | [] => some ([], [])
  | c :: rest =>
      if isBlank c || isBreak c then some ([], c :: rest)
      else if inFlow && c == ':' && rest.head?.any (fun d => d == '?' || isFlowPunctuation d) then
        none
      else if (c == ':' && atGap rest) || (inFlow && isFlowPunctuation c) then
        some ([], c :: rest)
      else (plainRun inFlow rest).map fun (s, after) => (c :: s, after)

/-- A scalar that has been read: its text, the rest, and whether line breaks were read behind
it. -/
structure PlainScalar where
  text : List Char
  after : Cursor
  brokenAfter : Bool

/-- Read runs and gaps of a plain scalar, at most `fuel` of them; `text` and `gap` have been
read before. -/
def readPlainFrom (indent : Nat) (inFlow : Bool) :
    Nat → Cursor → List Char → Gap → Option PlainScalar
  | 0, _, _, _ => none
  | fuel + 1, c, text, gap =>
      if c.atAnyDocumentMark || c.rest.head? == some '#' then some ⟨text, c, gap.broken⟩
      else do
        let (run, rest) ← plainRun inFlow c.rest
        let text := if run.isEmpty then text else text ++ gap.text ++ run
        let gap := if run.isEmpty then gap else Gap.empty
        let after := c.moveTo rest
        if rest.isEmpty || !atGap rest then some ⟨text, after, gap.broken⟩
        else
          let (gap, after) ← after.readGap indent gap
          if !inFlow && after.column < indent then some ⟨text, after, gap.broken⟩
          else readPlainFrom indent inFlow fuel after text gap

/-- Read a plain scalar whose lines are indented by at least `indent`. -/
def readPlain (indent : Nat) (inFlow : Bool) (c : Cursor) : Option PlainScalar :=
  readPlainFrom indent inFlow (c.rest.length + 1) c [] Gap.empty

end Quill.Yaml
