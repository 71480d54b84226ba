import Quill.Json.Number
import Quill.Number.Hex

/-!
# Tokens of JSON texts

Brackets, commas, colons, strings and the other scalars.  White space between tokens is the
space, the tab and the line breaks.
-/

namespace Quill.Json

/-- A unit of a JSON text. -/
inductive Token where
  | openArray
  | closeArray
  | openObject
  | closeObject
  | comma
  | colon
  | string (s : String)
  /-- Null, a truth value or a number. -/
  | scalar (j : Json)

/-- Whether a character separates tokens. -/
def isSpace (c : Char) : Bool :=
  c == ' ' || c == '\n' || c == '\t' || c == '\r'

/-- Whether a character can occur in a number. -/
def isNumberChar (c : Char) : Bool :=
  c.isDigit || c == '-' || c == '+' || c == '.' || c == 'e' || c == 'E'

/-- The token of a punctuation character. -/
def punctuation? (c : Char) : Option Token :=
  if c = '[' then some .openArray
  else if c = ']' then some .closeArray
  else if c = '\x7b' then some .openObject
  else if c = '\x7d' then some .closeObject
  else if c = ',' then some .comma
  else if c = ':' then some .colon
  else none

/-- The character that a letter behind a backslash stands for. -/
def shortEscape? (c : Char) : Option Char :=
  if c = '"' ∨ c = '\\' ∨ c = '/' then some c
  else if c = 'b' then some '\x08'
  else if c = 'f' then some '\x0c'
  else if c = 'n' then some '\n'
  else if c = 'r' then some '\r'
  else if c = 't' then some '\t'
  else none

/-- Whether a number is the first half of a surrogate pair. -/
def isHighSurrogate (n : Nat) : Bool := 0xd800 ≤ n && n < 0xdc00

/-- Whether a number is the second half of a surrogate pair. -/
def isLowSurrogate (n : Nat) : Bool := 0xdc00 ≤ n && n < 0xe000

/-- The character of a surrogate pair. -/
def surrogatePair (high low : Nat) : Char :=
  Char.ofNat (0x10000 + (high - 0xd800) * 0x400 + (low - 0xdc00))

/-- The rest of a string as it is written, behind its opening quote, and what follows the
closing one. -/
def cutString? : List Char → Option (List Char × List Char)
  | [] => none
  | '"' :: rest => some ([], rest)
  | '\\' :: c :: rest => (cutString? rest).map fun (s, after) => ('\\' :: c :: s, after)
  | c :: rest => (cutString? rest).map fun (s, after) => (c :: s, after)

/-- Reading a string uses up characters. -/
theorem cutString?_length {s t r : List Char} (h : cutString? s = some (t, r)) :
    r.length < s.length := by
  fun_induction cutString? s generalizing t r with
  | case1 => simp at h
  | case2 rest => grind
  | case3 c rest ih =>
      obtain ⟨⟨u, v⟩, hu, huv⟩ := Option.map_eq_some_iff.1 h
      have := ih hu
      grind
  | case4 c rest _ _ ih =>
      obtain ⟨⟨u, v⟩, hu, huv⟩ := Option.map_eq_some_iff.1 h
      have := ih hu
      grind

/-- The text that the inside of a string stands for.  Control characters and surrogates without
a partner are refused. -/
def unescape? : List Char → Option (List Char)
  | [] => some []
  | '\\' :: 'u' :: a :: b :: c :: d :: '\\' :: 'u' :: e :: f :: g :: h :: rest => do
      let n ← Hex.value? [a, b, c, d]
      if isHighSurrogate n then
        let m ← Hex.value? [e, f, g, h]
        if isLowSurrogate m then
          let s ← unescape? rest
          some (surrogatePair n m :: s)
        else none
      else if isLowSurrogate n then none
      else
        let s ← unescape? ('\\' :: 'u' :: e :: f :: g :: h :: rest)
        some (Char.ofNat n :: s)
  | '\\' :: 'u' :: a :: b :: c :: d :: rest => do
      let n ← Hex.value? [a, b, c, d]
      if isHighSurrogate n || isLowSurrogate n then none
      else
        let s ← unescape? rest
        some (Char.ofNat n :: s)
  | '\\' :: c :: rest => do
      let c ← shortEscape? c
      let s ← unescape? rest
      some (c :: s)
  | c :: rest =>
      if c.toNat < 32 ∨ c = '\\' then none
      else (unescape? rest).map (c :: ·)

/-- The words of JSON and their values. -/
def words : List (List Char × Json) :=
  [("null".toList, .null), ("true".toList, .bool true), ("false".toList, .bool false)]

/-- The tokens of a text; nothing if some part of it is no token. -/
def scan? (s : List Char) : Option (List Token) :=
  match s with
  | [] => some []
  | c :: rest =>
      if isSpace c then scan? rest
      else if c = '"' then
        match h : cutString? rest with
        | none => none
        | some (raw, after) =>
            have := cutString?_length h
            match unescape? raw with
            | none => none
            | some text => (scan? after).map (.string (String.ofList text) :: ·)
      else
        match punctuation? c with
        | some t => (scan? rest).map (t :: ·)
        | none =>
            match words.find? (·.1.isPrefixOf (c :: rest)) with
            | some (w, j) => (scan? (rest.drop (w.length - 1))).map (.scalar j :: ·)
            | none =>
                match number? (c :: rest.takeWhile isNumberChar) with
                | none => none
                | some j => (scan? (rest.dropWhile isNumberChar)).map (.scalar j :: ·)
termination_by s.length
decreasing_by
  · simp only [List.length_cons]; omega
  · simp only [List.length_cons]; omega
  · simp only [List.length_cons]; omega
  · simp only [List.length_cons, List.length_drop]; omega
  · have := (List.dropWhile_sublist isNumberChar (l := rest)).length_le
    simp only [List.length_cons]; omega

end Quill.Json
