import Quill.Yaml.Plain
import Quill.Yaml.Quoted
import Quill.Yaml.Block

/-!
# Tokens of YAML texts

The tokens of a text, with the blocks that indentation opens and closes.  Whether something is
the key of a mapping shows only at the colon behind it: every place where a key may start is
remembered, and the tokens that announce the key are spliced in there later.
-/

namespace Quill.Yaml

/-- A unit of a YAML text. -/
inductive Token where
  | version (major minor : Nat)
  | tagHandle (handle uri : List Char)
  | documentStart
  | documentEnd
  | sequenceBlock
  | mappingBlock
  | blockEnd
  | openSequence
  | closeSequence
  | openMapping
  | closeMapping
  | blockItem
  | comma
  | key
  | value
  | reference (name : List Char)
  | anchor (name : List Char)
  | tag (handle suffix : List Char)
  /-- A scalar, and whether it is written without quotes and outside a block. -/
  | scalar (text : List Char) (isPlain : Bool)
deriving DecidableEq

/-- A place where the key of a mapping may start. -/
structure KeyPlace where
  /-- Whether a key can still be made of it. -/
  possible : Bool
  /-- Whether a key has to be made of it, because it starts a line of a block mapping. -/
  required : Bool
  /-- The number of tokens before it. -/
  token : Nat
  line : Nat
  column : Nat
  index : Nat

namespace KeyPlace

/-- No place. -/
def none : KeyPlace := ⟨false, false, 0, 0, 0, 0⟩

end KeyPlace

/-- What is known while the tokens of a text are read. -/
structure Scanner where
  cursor : Cursor
  /-- The tokens so far, the last one first. -/
  tokens : List Token
  count : Nat
  /-- Tokens that belong in front of earlier ones, with the numbers of those. -/
  splices : List (Nat × List Token)
  /-- The column of the innermost block, `-1` outside all blocks. -/
  indent : Int
  /-- The columns of the blocks around it. -/
  outer : List Int
  /-- Whether a key may start here. -/
  keyAllowed : Bool
  /-- The place of the last possible key of the current flow collection. -/
  key : KeyPlace
  /-- The places of the collections around it; empty outside flow collections. -/
  outerKeys : List KeyPlace

/-- A step of reading tokens, which may fail. -/
abbrev Scan := StateT Scanner Option

namespace Scan

def fail {α : Type} : Scan α := fun _ => none

def require (b : Bool) : Scan Unit :=
  if b then pure () else fail

/-- Whether the current place lies in a flow collection. -/
def inFlow : Scan Bool := do
  return !(← get).outerKeys.isEmpty

/-- Put a token behind all others. -/
def emit (t : Token) : Scan Unit :=
  modify fun s => { s with tokens := t :: s.tokens, count := s.count + 1 }

/-- Put tokens in front of an earlier one. -/
def splice (place : Nat) (ts : List Token) : Scan Unit :=
  modify fun s => { s with splices := (place, ts) :: s.splices }

def moveTo (c : Cursor) : Scan Unit :=
  modify fun s => { s with cursor := c }

def allowKey (allowed : Bool) : Scan Unit :=
  modify fun s => { s with keyAllowed := allowed }

/-- Open a block at a column deeper than the innermost block; whether there was one to open. -/
def openBlock (column : Nat) : Scan Bool := do
  let s ← get
  if (← inFlow) || column ≤ s.indent then return false
  else
    set { s with outer := s.indent :: s.outer, indent := column }
    return true

/-- Close the blocks deeper than a column, of the innermost block and those given. -/
def closeBlocks (column : Int) : List Int → Scan Unit
  | [] => pure ()
  | next :: outer => do
      if column < (← get).indent then
        emit .blockEnd
        modify fun s => { s with indent := next, outer := outer }
        closeBlocks column outer

/-- Close the blocks deeper than a column; inside flow collections indentation means nothing. -/
def closeBlocksTo (column : Int) : Scan Unit := do
  if !(← inFlow) then closeBlocks column (← get).outer

/-- Give the last possible key up, which fails if there has to be one. -/
def dropKey : Scan Unit := do
  let s ← get
  require !(s.key.possible && s.key.required)
  set { s with key := { s.key with possible := false } }

/-- Remember the current place as one where a key may start. -/
def saveKey : Scan Unit := do
  let s ← get
  if s.keyAllowed then
    let required := s.outerKeys.isEmpty && s.indent == s.cursor.column
    dropKey
    modify fun s =>
      { s with key := ⟨true, required, s.count, s.cursor.line, s.cursor.column, s.cursor.index⟩ }

/-- Whether a key place is too far away to become a key: on an earlier line or more than 1024
characters before. -/
def isStale (c : Cursor) (k : KeyPlace) : Bool :=
  k.possible && (k.line < c.line || k.index + 1024 < c.index)

/-- Give up all key places that are too far away. -/
def dropStaleKeys : Scan Unit := do
  let s ← get
  let stale := (s.key :: s.outerKeys).filter (isStale s.cursor)
  require !(stale.any (·.required))
  let freshen (k : KeyPlace) : KeyPlace :=
    if isStale s.cursor k then { k with possible := false } else k
  set { s with key := freshen s.key, outerKeys := s.outerKeys.map freshen }

/-- Skip blanks, comments and line breaks, at most `fuel` lines of them.  Tabs are not skipped
where a key may start in a block. -/
def skipGapsFrom : Nat → Scan Unit
  | 0 => fail
  | fuel + 1 => do
      let flow ← inFlow
      let s ← get
      let c := if s.cursor.column == 0 && s.cursor.rest.head? == some '\ufeff' then
        s.cursor.skip 1 else s.cursor
      let c := c.skipWhile fun ch => ch == ' ' || (ch == '\t' && (flow || !s.keyAllowed))
      let c := if c.rest.head? == some '#' then c.skipWhile (!isBreak ·) else c
      moveTo c
      if !c.rest.isEmpty && atLineEnd c.rest then
        moveTo c.skipBreak
        if !flow then allowKey true
        skipGapsFrom fuel

def skipGaps : Scan Unit := do
  skipGapsFrom ((← get).cursor.rest.length + 1)

/-- Emit a token for the next `n` characters. -/
def take (n : Nat) (t : Token) : Scan Unit := do
  moveTo ((← get).cursor.skip n)
  emit t

/-- Start a flow collection. -/
def openFlow (t : Token) : Scan Unit := do
  saveKey
  modify fun s => { s with outerKeys := s.key :: s.outerKeys, key := .none, keyAllowed := true }
  take 1 t

/-- End a flow collection. -/
def closeFlow (t : Token) : Scan Unit := do
  dropKey
  modify fun s =>
    match s.outerKeys with
    | [] => s
    | k :: outer => { s with key := k, outerKeys := outer }
  allowKey false
  take 1 t

/-- The comma of a flow collection. -/
def takeComma : Scan Unit := do
  dropKey
  allowKey true
  take 1 .comma

/-- The dash of a block sequence. -/
def takeBlockItem : Scan Unit := do
  if !(← inFlow) then
    require (← get).keyAllowed
    if ← openBlock (← get).cursor.column then emit .sequenceBlock
  dropKey
  allowKey true
  take 1 .blockItem

/-- The question mark of an explicit key. -/
def takeKey : Scan Unit := do
  let flow ← inFlow
  if !flow then
    require (← get).keyAllowed
    if ← openBlock (← get).cursor.column then emit .mappingBlock
  dropKey
  allowKey !flow
  take 1 .key

/-- The colon in front of a value.  If a key may have started before, it did. -/
def takeValue : Scan Unit := do
  let k := (← get).key
  if k.possible then
    let opened ← openBlock k.column
    splice k.token (if opened then [.mappingBlock, .key] else [.key])
    modify fun s => { s with key := { s.key with possible := false } }
    allowKey false
  else
    let flow ← inFlow
    if !flow then
      require (← get).keyAllowed
      if ← openBlock (← get).cursor.column then emit .mappingBlock
    allowKey !flow
  take 1 .value

/-- A mark between documents. -/
def takeDocumentMark (t : Token) : Scan Unit := do
  closeBlocksTo (-1)
  dropKey
  allowKey false
  take 3 t

/-- A decimal number of at most nine digits. -/
def readNumber (c : Cursor) : Scan (Nat × Cursor) := do
  let ds := c.rest.takeWhile Char.isDigit
  require (!ds.isEmpty && ds.length ≤ 9)
  return (ds.foldl (fun acc d => acc * 10 + (d.toNat - '0'.toNat)) 0, c.skip ds.length)

/-- Whether a character may occur in a tag. -/
def isTagChar (verbatim : Bool) (c : Char) : Bool :=
  isWordChar c || ";/?:@&=+$.!~*'()%".toList.contains c
    || (verbatim && (c == ',' || c == '[' || c == ']'))

/-- Replace the percent escapes of a tag by the bytes they spell. -/
def tagBytes : List Char → Option (List UInt8)
  | [] => some []
  | '%' :: a :: b :: rest => do
      let n ← Hex.value? [a, b]
      let more ← tagBytes rest
      some (UInt8.ofNat n :: more)
  | c :: rest => if c == '%' then none else (tagBytes rest).map (UInt8.ofNat c.toNat :: ·)

/-- The text of a tag as it is written. -/
def tagText (s : List Char) : Scan (List Char) :=
  match tagBytes s with
  | none => fail
  | some bytes =>
      match String.fromUTF8? ⟨bytes.toArray⟩ with
      | none => fail
      | some text => return text.toList

/-- The characters of a tag. -/
def readTagChars (verbatim : Bool) (c : Cursor) : Scan (List Char × Cursor) := do
  let s := c.rest.takeWhile (isTagChar verbatim)
  return (← tagText s, c.skip s.length)

/-- The handle of a tag: an exclamation mark and, if it ends with another one, a word. -/
def tagHandleOf (s : List Char) : List Char :=
  let word := (s.drop 1).takeWhile isWordChar
  '!' :: word ++ (if (s.drop (1 + word.length)).head? == some '!' then ['!'] else [])

/-- A line of the form `%NAME …`. -/
def takeDirective : Scan Unit := do
  closeBlocksTo (-1)
  dropKey
  allowKey false
  let c := (← get).cursor.skip 1
  let name := c.rest.takeWhile isWordChar
  let c := c.skip name.length
  require (!name.isEmpty && atGap c.rest)
  let c := c.skipWhile isBlank
  let c ←
    if name == "YAML".toList then do
      let (major, c) ← readNumber c
      require (c.rest.head? == some '.')
      let (minor, c) ← readNumber (c.skip 1)
      emit (.version major minor)
      pure c
    else if name == "TAG".toList then do
      require (c.rest.head? == some '!')
      let handle := tagHandleOf c.rest
      require (handle.length == 1 || handle.getLast? == some '!')
      let c := c.skip handle.length
      require (!c.rest.isEmpty && c.rest.head?.all isBlank)
      let (uri, c) ← readTagChars true (c.skipWhile isBlank)
      require (!uri.isEmpty && atGap c.rest)
      emit (.tagHandle handle uri)
      pure c
    else fail
  match skipToLineEnd c with
  | none => fail
  | some c => moveTo c.skipBreak

/-- A name behind `&` or `*`. -/
def takeName (t : List Char → Token) : Scan Unit := do
  saveKey
  allowKey false
  let c := (← get).cursor.skip 1
  let name := c.rest.takeWhile isWordChar
  let c := c.skip name.length
  require (!name.isEmpty
    && (atGap c.rest || c.rest.head?.any (fun ch => "?:,]\x7d%@\x60".toList.contains ch)))
  moveTo c
  emit (t name)

/-- A tag. -/
def takeTag : Scan Unit := do
  saveKey
  allowKey false
  let flow ← inFlow
  let c := (← get).cursor
  let (t, c) ←
    if (c.rest.drop 1).head? == some '<' then do
      let (uri, c) ← readTagChars true (c.skip 2)
      require (!uri.isEmpty && c.rest.head? == some '>')
      pure (Token.tag [] uri, c.skip 1)
    else do
      let handle := tagHandleOf c.rest
      if 2 ≤ handle.length && handle.getLast? == some '!' then
        let (suffix, c) ← readTagChars false (c.skip handle.length)
        require !suffix.isEmpty
        pure (Token.tag handle suffix, c)
      else
        let (suffix, c) ← readTagChars false (c.skip 1)
        pure (if suffix.isEmpty then Token.tag [] ['!'] else Token.tag ['!'] suffix, c)
  require (atGap c.rest || (flow && c.rest.head? == some ','))
  moveTo c
  emit t

/-- A literal or folded scalar. -/
def takeBlockScalar (isLiteral : Bool) : Scan Unit := do
  dropKey
  allowKey true
  let s ← get
  match readBlock isLiteral s.indent (s.cursor.skip 1) with
  | none => fail
  | some (text, c) =>
      moveTo c
      emit (.scalar text false)

/-- A scalar between quotes. -/
def takeQuoted (single : Bool) : Scan Unit := do
  saveKey
  allowKey false
  match readQuoted single ((← get).cursor.skip 1) with
  | none => fail
  | some (text, c) =>
      moveTo c
      emit (.scalar text false)

/-- A scalar without quotes. -/
def takePlain : Scan Unit := do
  saveKey
  allowKey false
  let s ← get
  match readPlain (s.indent + 1).toNat (← inFlow) s.cursor with
  | none => fail
  | some r =>
      moveTo r.after
      emit (.scalar r.text true)
      if r.brokenAfter then allowKey true

/-- The characters that no plain scalar starts with; the last three may start one before
other characters than gaps. -/
def indicators : List Char := ",[]\x7b\x7d#&*!|>'\"%@\x60-?:".toList

/-- Whether a plain scalar starts here. -/
def startsPlain (flow : Bool) (c : Char) (rest : List Char) : Bool :=
  !(indicators.contains c || isBlank c || isBreak c)
    || (c == '-' && !(rest.head?.any isBlank))
    || (!flow && (c == '?' || c == ':') && !atGap rest)

/-- Read the token that starts with `ch`, before `rest`. -/
def takeToken (ch : Char) (rest : List Char) : Scan Unit := do
  let flow ← inFlow
  let c := (← get).cursor
  if c.column == 0 && ch == '%' then takeDirective
  else if c.atDocumentMark '-' then takeDocumentMark .documentStart
  else if c.atDocumentMark '.' then takeDocumentMark .documentEnd
  else if ch == '[' then openFlow .openSequence
  else if ch == '\x7b' then openFlow .openMapping
  else if ch == ']' then closeFlow .closeSequence
  else if ch == '\x7d' then closeFlow .closeMapping
  else if ch == ',' then takeComma
  else if ch == '-' && atGap rest then takeBlockItem
  else if ch == '?' && (flow || atGap rest) then takeKey
  else if ch == ':' && (flow || atGap rest) then takeValue
  else if ch == '*' then takeName .reference
  else if ch == '&' then takeName .anchor
  else if ch == '!' then takeTag
  else if ch == '|' && !flow then takeBlockScalar true
  else if ch == '>' && !flow then takeBlockScalar false
  else if ch == '\'' then takeQuoted true
  else if ch == '"' then takeQuoted false
  else if startsPlain flow ch rest then takePlain
  else fail

/-- Read the tokens of the rest of the text, at most `fuel` of them. -/
def takeTokens : Nat → Scan Unit
  | 0 => fail
  | fuel + 1 => do
      skipGaps
      dropStaleKeys
      closeBlocksTo (← get).cursor.column
      match (← get).cursor.rest with
      | [] =>
          closeBlocksTo (-1)
          dropKey
      | ch :: rest =>
          takeToken ch rest
          takeTokens fuel

end Scan

namespace Token

/-- Tokens with their numbers from `n` on, each behind the tokens spliced in front of it. -/
def spliced (splices : List (Nat × List Token)) : Nat → List Token → List Token
  | _, [] => []
  | n, t :: rest =>
      ((splices.filter (·.1 = n)).flatMap (·.2)) ++ t :: spliced splices (n + 1) rest

/-- The tokens of a text; nothing if a part of it is no token or stands where it must not.  A
byte-order mark in front is ignored. -/
def scan? (text : List Char) : Option (List Token) := do
  let text := if text.head? == some '\ufeff' then text.drop 1 else text
  if !text.all isAllowed then none
  else
    let start : Scanner :=
      { cursor := .start text, tokens := [], count := 0, splices := [], indent := -1,
        outer := [], keyAllowed := true, key := .none, outerKeys := [] }
    let (_, s) ← (Scan.takeTokens (text.length + 1)).run start
    some (spliced s.splices 0 s.tokens.reverse)

end Token

end Quill.Yaml
