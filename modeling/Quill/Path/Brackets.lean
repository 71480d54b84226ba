import Quill.Path.Token
import Quill.Path.Error

/-!
# Bracket nesting

The tokens of a path expression as a tree of bracket groups.  The tree is built from the last
token to the first: a closing bracket opens a level, the opening bracket closes it.
-/

namespace Quill.Path

/-- Tokens with their bracket groups. -/
inductive Brackets where
  | nil
  | token (t : Token) (rest : Brackets)
  | group (inner rest : Brackets)
deriving DecidableEq

/-- The levels open while tokens are read from the last to the first. -/
structure Levels where
  /-- What has been read of the innermost level. -/
  inner : Brackets
  /-- The levels around it, the nearest first. -/
  outer : List Brackets
  /-- Whether an opening bracket found no closing one. -/
  unclosed : Bool

namespace Levels

/-- Nothing read yet. -/
def start : Levels := ⟨.nil, [], false⟩

/-- Take one more token, standing before those already taken. -/
def push (t : Token) (l : Levels) : Levels :=
  if t = .char ']' then { l with inner := .nil, outer := l.inner :: l.outer }
  else if t = .char '[' then
    match l.outer with
    | [] => { l with unclosed := true }
    | next :: outer => { l with inner := .group l.inner next, outer := outer }
  else { l with inner := .token t l.inner }

end Levels

/-- The bracket nesting of a list of tokens.  A closing bracket without an opening one is
reported before an opening one without a closing one. -/
def nest (ts : List Token) : Except PathFlaw Brackets :=
  let l := ts.foldr Levels.push Levels.start
  if !l.outer.isEmpty then .error .unexpectedClosing
  else if l.unclosed then .error .unclosed
  else .ok l.inner

end Quill.Path
