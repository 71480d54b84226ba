import Quill.Yaml.Token

/-!
# Nodes of YAML documents

The tree of nodes that the tokens of a text describe.  Anchors are numbered as they come;
references keep the number of the anchor they name.
-/

namespace Quill.Yaml

/-- A node of a document. -/
inductive Node where
  | scalar (tag : Option (List Char)) (text : List Char) (isPlain : Bool)
  | sequence (tag : Option (List Char)) (items : List Node)
  | mapping (tag : Option (List Char)) (entries : List (Node × Node))
  /-- A node that can be referred to. -/
  | anchored (number : Nat) (node : Node)
  /-- The node with the given number once more. -/
  | reference (number : Nat)

namespace Node

instance : Inhabited Node := ⟨.reference 0⟩

/-- The node of a missing value. -/
def missing : Node := .scalar none [] true

mutual

/-- The anchored nodes with their numbers, outer ones before inner ones. -/
def targets : Node → List (Nat × Node)
  | .scalar .. => []
  | .reference _ => []
  | .anchored n node => (n, node) :: node.targets
  | .sequence _ items => targetsOfItems items
  | .mapping _ entries => targetsOfEntries entries

def targetsOfItems : List Node → List (Nat × Node)
  | [] => []
  | n :: rest => n.targets ++ targetsOfItems rest

def targetsOfEntries : List (Node × Node) → List (Nat × Node)
  | [] => []
  | (k, v) :: rest => k.targets ++ v.targets ++ targetsOfEntries rest

end

mutual

/-- The size of a node: one for a leaf, and two for the ends of a collection. -/
def size : Node → Nat
  | .scalar .. => 1
  | .reference _ => 1
  | .anchored _ node => node.size
  | .sequence _ items => 2 + sizeOfItems items
  | .mapping _ entries => 2 + sizeOfEntries entries

def sizeOfItems : List Node → Nat
  | [] => 0
  | n :: rest => n.size + sizeOfItems rest

def sizeOfEntries : List (Node × Node) → Nat
  | [] => 0
  | (k, v) :: rest => k.size + v.size + sizeOfEntries rest

end

end Node

/-- What is known while the nodes of a document are read. -/
structure NodeReader where
  tokens : List Token
  /-- The handles of tags and what they stand for. -/
  handles : List (List Char × List Char)
  /-- The names of anchors and their numbers. -/
  anchors : List (List Char × Nat)

/-- A step of reading nodes, which may fail. -/
abbrev ReadNode := StateT NodeReader Option

namespace ReadNode

def fail {α : Type} : ReadNode α := fun _ => none

def require (b : Bool) : ReadNode Unit :=
  if b then pure () else fail

/-- The next token. -/
def peek : ReadNode (Option Token) := do
  return (← get).tokens.head?

/-- Pass over the next token. -/
def drop : ReadNode Unit :=
  modify fun s => { s with tokens := s.tokens.tail }

/-- Whether the next token is one of those given. -/
def isNext (ts : List Token) : ReadNode Bool := do
  return (← peek).any ts.contains

/-- Pass over the next token if it is the one given; whether it was. -/
def accept (t : Token) : ReadNode Bool := do
  if ← isNext [t] then
    drop
    return true
  else return false

/-- The tag that a handle and a suffix stand for. -/
def resolveTag (handle suffix : List Char) : ReadNode (List Char) := do
  if handle.isEmpty then return suffix
  else
    match (← get).handles.find? (·.1 = handle) with
    | some (_, uri) => return uri ++ suffix
    | none => fail

/-- Number an anchor: the number is how many different names came before.  A name that comes
again gets a number anew. -/
def numberAnchor (name : List Char) : ReadNode Nat := do
  let s ← get
  let number := s.anchors.length
  set { s with anchors := (name, number) :: s.anchors.filter (·.1 ≠ name) }
  return number

/-- The number of the anchor with a name. -/
def findAnchor (name : List Char) : ReadNode Nat := do
  match (← get).anchors.find? (·.1 = name) with
  | some (_, number) => return number
  | none => fail

/-- Read the anchor, if there is one. -/
def anchor? : ReadNode (Option (List Char)) := do
  match ← peek with
  | some (.anchor name) => drop; return some name
  | _ => return none

/-- Read the tag, if there is one. -/
def tag? : ReadNode (Option (List Char)) := do
  match ← peek with
  | some (.tag handle suffix) => drop; return some (← resolveTag handle suffix)
  | _ => return none

/-- Read an anchor and a tag in either order, each at most once. -/
def properties : ReadNode (Option (List Char) × Option (List Char)) := do
  match ← anchor? with
  | some name => return (some name, ← tag?)
  | none =>
      let t ← tag?
      return (← anchor?, t)

mutual

/-- Read a node.  In a block (`inBlock`) it may be a block collection, and where a mapping asks
for a value (`dashes`) a sequence that is not indented. -/
def node (fuel : Nat) (inBlock dashes : Bool) : ReadNode Node :=
  match fuel with
  | 0 => fail
  | fuel + 1 => do
      match ← peek with
      | some (.reference name) => do
          drop
          return .reference (← findAnchor name)
      | _ => do
          let (anchor, tag) ← properties
          let number ← match anchor with
            | some name => some <$> numberAnchor name
            | none => pure none
          let wrap (n : Node) : Node := match number with
            | some number => .anchored number n
            | none => n
          match ← peek with
          | some .blockItem =>
              if dashes then return wrap (.sequence tag (← looseItems fuel))
              else leaf anchor tag wrap
          | some (.scalar text isPlain) => do
              drop
              if tag == some ['!'] then return wrap (.scalar none text isPlain)
              else return wrap (.scalar tag text isPlain)
          | some .openSequence => do
              drop
              return wrap (.sequence tag (← flowItems fuel true))
          | some .openMapping => do
              drop
              return wrap (.mapping tag (← flowEntries fuel true))
          | some .sequenceBlock =>
              if inBlock then do
                drop
                return wrap (.sequence tag (← blockItems fuel))
              else leaf anchor tag wrap
          | some .mappingBlock =>
              if inBlock then do
                drop
                return wrap (.mapping tag (← blockEntries fuel))
              else leaf anchor tag wrap
          | _ => leaf anchor tag wrap

/-- The node of an anchor or a tag with nothing behind it. -/
def leaf (anchor tag : Option (List Char)) (wrap : Node → Node) : ReadNode Node := do
  require (anchor.isSome || tag.isSome)
  return wrap (.scalar tag [] true)

/-- Read a node unless one of the given tokens comes next. -/
def nodeUnless (fuel : Nat) (ends : List Token) (inBlock dashes : Bool) : ReadNode Node :=
  match fuel with
  | 0 => fail
  | fuel + 1 => do
      if ← isNext ends then return .missing
      else node fuel inBlock dashes

/-- Read the items of a block sequence up to its end. -/
def blockItems (fuel : Nat) : ReadNode (List Node) :=
  match fuel with
  | 0 => fail
  | fuel + 1 => do
      if ← accept .blockItem then
        let n ← nodeUnless fuel [.blockItem, .blockEnd] true false
        return n :: (← blockItems fuel)
      else if ← accept .blockEnd then return []
      else fail

/-- Read the items of a sequence that is not indented; it ends where no dash follows. -/
def looseItems (fuel : Nat) : ReadNode (List Node) :=
  match fuel with
  | 0 => fail
  | fuel + 1 => do
      if ← accept .blockItem then
        let n ← nodeUnless fuel [.blockItem, .key, .value, .blockEnd] true false
        return n :: (← looseItems fuel)
      else return []

/-- Read the entries of a block mapping up to its end. -/
def blockEntries (fuel : Nat) : ReadNode (List (Node × Node)) :=
  match fuel with
  | 0 => fail
  | fuel + 1 => do
      if ← accept .key then
        let k ← nodeUnless fuel [.key, .value, .blockEnd] true true
        let v ←
          if ← accept .value then nodeUnless fuel [.key, .value, .blockEnd] true true
          else pure .missing
        return (k, v) :: (← blockEntries fuel)
      else if ← accept .blockEnd then return []
      else fail

/-- Read the items of a flow sequence up to its end. -/
def flowItems (fuel : Nat) (first : Bool) : ReadNode (List Node) :=
  match fuel with
  | 0 => fail
  | fuel + 1 => do
      if ← accept .closeSequence then return []
      else
        if !first then require (← accept .comma)
        if ← accept .key then
          let n ← flowPair fuel
          return n :: (← flowItems fuel false)
        else if ← accept .closeSequence then return []
        else
          let n ← node fuel false false
          return n :: (← flowItems fuel false)

/-- Read a single entry inside a flow sequence, behind the token of its key. -/
def flowPair (fuel : Nat) : ReadNode Node :=
  match fuel with
  | 0 => fail
  | fuel + 1 => do
      let k ←
        if ← isNext [.value, .comma, .closeSequence] then
          drop
          pure .missing
        else node fuel false false
      let v ←
        if ← accept .value then nodeUnless fuel [.comma, .closeSequence] false false
        else pure .missing
      return .mapping none [(k, v)]

/-- Read the entries of a flow mapping up to its end. -/
def flowEntries (fuel : Nat) (first : Bool) : ReadNode (List (Node × Node)) :=
  match fuel with
  | 0 => fail
  | fuel + 1 => do
      if ← accept .closeMapping then return []
      else
        if !first then require (← accept .comma)
        if ← accept .key then
          let k ← nodeUnless fuel [.value, .comma, .closeMapping] false false
          let v ←
            if ← accept .value then nodeUnless fuel [.comma, .closeMapping] false false
            else pure .missing
          return (k, v) :: (← flowEntries fuel false)
        else if ← accept .closeMapping then return []
        else
          let k ← node fuel false false
          return (k, .missing) :: (← flowEntries fuel false)

end

/-- The handles that stand for something in every document. -/
def standardHandles : List (List Char × List Char) :=
  [(['!'], ['!']), (['!', '!'], "tag:yaml.org,2002:".toList)]

/-- Read the directives of a document; whether there are any. -/
def directives : List Token → Bool → ReadNode Bool
  | .version major minor :: rest, versioned => do
      drop
      require (!versioned && major == 1 && (minor == 1 || minor == 2))
      let _ ← directives rest true
      return true
  | .tagHandle handle uri :: rest, versioned => do
      drop
      let s ← get
      let own := s.handles.take (s.handles.length - standardHandles.length)
      require (!(own.any (·.1 = handle)))
      set { s with handles := (handle, uri) :: s.handles }
      let _ ← directives rest versioned
      return true
  | _, _ => return false

/-- Read one document: its directives, its node and the mark behind it.  Nothing at all is the
missing node. -/
def document (fuel : Nat) : ReadNode Node := do
  let hasDirectives ← directives (← get).tokens false
  let isExplicit ← accept .documentStart
  require (isExplicit || !hasDirectives)
  if (← get).tokens.isEmpty then return .missing
  else nodeUnless fuel (if isExplicit then [.documentStart, .documentEnd] else []) true false

end ReadNode

namespace Node

/-- The node of the single document that a list of tokens holds. -/
def ofTokens? (tokens : List Token) : Option Node := do
  let fuel := 4 * tokens.length + 4
  let (n, s) ← (ReadNode.document fuel).run ⟨tokens, ReadNode.standardHandles, []⟩
  if (s.tokens.dropWhile (· == .documentEnd)).isEmpty then some n else none

/-- The node of the single document that a text holds. -/
def ofText? (text : List Char) : Option Node :=
  (Token.scan? text).bind ofTokens?

end Node

end Quill.Yaml
