import Quill.Path.Basic
import Quill.Text.Blank

/-!
# Tokens of a path expression

A path expression is a list of tokens: characters, characters made literal by a backslash, and
separators.
-/

namespace Quill.Path

/-- A unit of a path expression. -/
inductive Token where
  | char (c : Char)
  /-- A character made literal by a backslash. -/
  | escaped (c : Char)
  | separator
deriving DecidableEq

namespace Token

/-- Whether the token is white space that was not made literal. -/
def isBlank : Token → Bool
  | .char c => Text.isBlank c
  | _ => false

/-- The character that a token contributes to a key. -/
def char? : Token → Option Char
  | .char c => some c
  | .escaped c => some c
  | .separator => none

end Token

/-- Whether a text starts with the separator; no text starts with an empty separator. -/
def atSeparator (separator s : List Char) : Bool :=
  !separator.isEmpty && separator.isPrefixOf s

/-- The reserved character that a text starts with. -/
def reservedHead? : List Char → Option Char
  | [] => none
  | c :: _ => if reserved.contains c then some c else none

/-- The tokens of a text whose first `skip` characters belong to a token already made.  A
backslash directly before the separator or a reserved character makes it literal and is
dropped; every other backslash is a character. -/
def scanFrom (separator : List Char) : Nat → List Char → List Token
  | _, [] => []
  | skip + 1, _ :: rest => scanFrom separator skip rest
  | 0, c :: rest =>
      if c = '\\' ∧ atSeparator separator rest then
        separator.map .escaped ++ scanFrom separator separator.length rest
      else
        match if c = '\\' then reservedHead? rest else none with
        | some d => .escaped d :: scanFrom separator 1 rest
        | none =>
            if atSeparator separator (c :: rest) then
              .separator :: scanFrom separator (separator.length - 1) rest
            else
              .char c :: scanFrom separator 0 rest

/-- The tokens of a path expression. -/
def scan (separator s : List Char) : List Token :=
  scanFrom separator 0 s

/-- The text of a key: the characters of its tokens without white space at both ends, where
white space made literal counts as text. -/
def keyChars (ts : List Token) : List Char :=
  (Text.trimBy Token.isBlank ts).filterMap Token.char?

end Quill.Path
