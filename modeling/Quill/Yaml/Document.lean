import Quill.Yaml.Node
import Quill.Yaml.Scalar
import Quill.Tree.Basic

/-!
# YAML documents

The values of YAML texts, with references replaced by what they refer to, and the trees they
stand for.
-/

namespace Quill

/-- The value of a YAML document. -/
inductive Yaml where
  | null
  | bool (b : Bool)
  | int (n : Int)
  | float (x : Binary64)
  | string (s : String)
  | sequence (items : List Yaml)
  | mapping (entries : List (Yaml × Yaml))
  /-- A value with a tag of its own. -/
  | tagged (tag : List Char) (value : Yaml)

namespace Yaml

instance : Inhabited Yaml := ⟨.null⟩

/-- Whether two doubles count as one key: not-a-number equals itself, and both zeros are
equal. -/
def sameFloat (x y : Binary64) : Bool :=
  x == y || (x.isZero && y.isZero) || (x.isNaN && y.isNaN)

mutual

/-- Whether two values are equal as keys.  The order of the entries of a mapping does not
matter. -/
def same : Yaml → Yaml → Bool
  | .null, .null => true
  | .bool a, .bool b => a == b
  | .int a, .int b => a == b
  | .float x, .float y => sameFloat x y
  | .string a, .string b => a == b
  | .sequence a, .sequence b => sameItems a b
  | .mapping a, .mapping b => a.length == b.length && sameEntries a b
  | .tagged a x, .tagged b y => a == b && same x y
  | _, _ => false

/-- Whether two lists agree item by item. -/
def sameItems : List Yaml → List Yaml → Bool
  | [], [] => true
  | x :: xs, y :: ys => same x y && sameItems xs ys
  | _, _ => false

/-- Whether every entry has an equal one among those given. -/
def sameEntries : List (Yaml × Yaml) → List (Yaml × Yaml) → Bool
  | [], _ => true
  | (k, v) :: rest, others =>
      others.any (fun e => same k e.1 && same v e.2) && sameEntries rest others

end

/-- The value of a scalar; integers beyond 64 bits have none. -/
def ofScalar? : Scalar → Option Yaml
  | .null => some .null
  | .bool b => some (.bool b)
  | .int n => some (.int n)
  | .float x => some (.float x)
  | .string s => some (.string s)
  | .wide => none

/-- The tag of the standard scheme with the given name. -/
def standardTag (name : String) : List Char :=
  "tag:yaml.org,2002:".toList ++ name.toList

/-- The value of a scalar with a tag of the standard scheme or a foreign one: truth values,
numbers and null are read as what the tag says, everything else is a string. -/
def ofTagged? (tag text : List Char) : Option Yaml :=
  if tag = standardTag "bool" then (Scalar.boolText? text).map .bool
  else if tag = standardTag "int" then
    ((Scalar.integer? text).bind Scalar.ofInteger?).bind ofScalar?
  else if tag = standardTag "float" then (Scalar.float? text).map .float
  else if tag = standardTag "null" then if Scalar.isNullText text then some .null else none
  else some (.string (String.ofList text))

/-- The tag that a value keeps: local tags are kept without their exclamation mark, all others
are not. -/
def keptTag? : Option (List Char) → Option (List Char)
  | some ['!'] => some ['!']
  | some ('!' :: rest) => some rest
  | _ => none

/-- Put the tag around a value that keeps it. -/
def withTag (tag : Option (List Char)) (v : Yaml) : Yaml :=
  match keptTag? tag with
  | some t => .tagged t v
  | none => v

/-- The value of a scalar node. -/
def ofScalarNode? (tag : Option (List Char)) (text : List Char) (isPlain : Bool) : Option Yaml :=
  let untagged : Option Yaml :=
    if isPlain then ofScalar? (Scalar.ofPlain text) else some (.string (String.ofList text))
  match tag, keptTag? tag with
  | some t, none => ofTagged? t text
  | _, _ => untagged.map (withTag tag)

/-- The greatest depth to which collections may nest. -/
def maxDepth : Nat := 128

/-- A step of finding values; its state is the number of references that may still be
followed. -/
abbrev Resolve := StateT Nat Option

/-- Follow a reference. -/
def follow : Resolve Unit := fun left =>
  if left = 0 then none else some ((), left - 1)

/-- Put an entry behind others; a key that is there already is refused. -/
def addEntry (entries : List (Yaml × Yaml)) (k v : Yaml) : Option (List (Yaml × Yaml)) :=
  if entries.any (fun e => same e.1 k) then none else some (entries ++ [(k, v)])

/-- The value of a node that is no reference and has no anchor in front of it, with at most
`depth` levels of collections; `inner` gives the values one level deeper. -/
def ofBareNode (inner : Node → Resolve Yaml) (isLeafLevel : Bool) : Node → Resolve Yaml
  | .scalar tag text isPlain => (ofScalarNode? tag text isPlain : Option Yaml)
  | .sequence tag items => do
      if isLeafLevel then (none : Option Yaml)
      else return withTag tag (.sequence (← items.mapM inner))
  | .mapping tag entries => do
      if isLeafLevel then (none : Option Yaml)
      else
        let entries ← entries.foldlM (fun done (k, v) => do
          let k ← inner k
          let v ← inner v
          (addEntry done k v : Option (List (Yaml × Yaml)))) []
        return withTag tag (.mapping entries)
  | .anchored .. => (none : Option Yaml)
  | .reference _ => (none : Option Yaml)

/-- A node without the anchor around it. -/
def bare : Node → Node
  | .anchored _ node => node
  | node => node

/-- The value of a node with at most `depth` levels of collections.  A reference stands for the
last node with its number. -/
def ofNode (targets : List (Nat × Node)) (depth : Nat) (n : Node) : Resolve Yaml :=
  let inner (n : Node) : Resolve Yaml :=
    match depth with
    | 0 => (none : Option Yaml)
    | depth + 1 => ofNode targets depth n
  let value (n : Node) := ofBareNode inner (depth == 0) (bare n)
  match n with
  | .reference number =>
      match targets.reverse.find? (·.1 = number) with
      | some (_, target) => do
          follow
          value target
      | none => (none : Option Yaml)
  | n => value n
termination_by depth

/-- The value of the single document that a text holds. -/
def ofText? (s : String) : Option Yaml := do
  let n ← Node.ofText? s.toList
  ((ofNode n.targets maxDepth n).run (n.size * 100)).map (·.1)

/-! ### Trees -/

/-- A text between quotes, as error messages show it: control characters and quotes are
escaped. -/
def quoted (s : String) : String :=
  let hex (n : Nat) : List Char := Nat.toDigits 16 n
  let shown (c : Char) : List Char :=
    let n := c.toNat
    if c = '"' then ['\\', '"']
    else if c = '\\' then ['\\', '\\']
    else if c = '\n' then ['\\', 'n']
    else if c = '\r' then ['\\', 'r']
    else if c = '\t' then ['\\', 't']
    else if n = 0 then ['\\', '0']
    else if n < 0x20 || (0x7f ≤ n && n < 0xa0) || n == 0xad || (0x200b ≤ n && n ≤ 0x200f)
        || (0x2028 ≤ n && n ≤ 0x202e) || (0x2060 ≤ n && n ≤ 0x206f) || n == 0xfeff
        || (0xe000 ≤ n && n ≤ 0xf8ff) then
      ['\\', 'u', '\x7b'] ++ hex n ++ ['\x7d']
    else [c]
  String.ofList ('"' :: s.toList.flatMap shown ++ ['"'])

/-- The text of a number. -/
def numberText (n : Int) : String := String.ofList (Decimal.ofInt n)

/-- The text of a float. -/
def floatText (x : Binary64) : String := String.ofList (FloatLayout.yaml.text x)

/-- Texts with a comma between neighbours. -/
def commaList (xs : List String) : String := ", ".intercalate xs

mutual

/-- A value as error messages show it. -/
def describe : Yaml → String
  | .null => "Null"
  | .bool b => "Bool(" ++ (if b then "true" else "false") ++ ")"
  | .int n => "Number(" ++ numberText n ++ ")"
  | .float x => "Number(" ++ floatText x ++ ")"
  | .string s => "String(" ++ quoted s ++ ")"
  | .sequence items => "Sequence [" ++ commaList (describeItems items) ++ "]"
  | .mapping entries => "Mapping \x7b" ++ commaList (describeEntries entries) ++ "\x7d"
  | .tagged tag v =>
      "TaggedValue \x7b tag: !" ++ String.ofList (tag.dropWhile (· == '!')) ++ ", value: "
        ++ v.describe ++ " \x7d"

def describeItems : List Yaml → List String
  | [] => []
  | v :: rest => v.describe :: describeItems rest

def describeEntries : List (Yaml × Yaml) → List String
  | [] => []
  | (k, v) :: rest =>
      let key := match k with
        | .bool b => if b then "true" else "false"
        | .int n => numberText n
        | .float x => floatText x
        | .string s => quoted s
        | k => k.describe
      (key ++ ": " ++ v.describe) :: describeEntries rest

end

/-- The 64-bit integer of an integer, or the double nearest to it. -/
def integerValue (n : Int) : Value :=
  match Decimal.word? n with
  | some i => .int i
  | none => .float (Binary64.ofQuotient (n < 0) n.natAbs 1)

/-- The key of a mapping: its text, read as key text.  Collections are no keys; the error
carries one as messages show it. -/
def toKey : Yaml → Except String Key
  | .string s => .ok (.ofText s)
  | .int n => .ok (.ofText (numberText n))
  | .float x => .ok (.ofText (floatText x))
  | .bool b => .ok (.ofText (if b then "true" else "false"))
  | .null => .ok (.ofText "")
  | .tagged _ v => v.toKey
  | v => .error v.describe

mutual

/-- The value that a YAML value stands for; tags are dropped. -/
def toValue : Yaml → Except String Value
  | .null => .ok .null
  | .bool b => .ok (.bool b)
  | .int n => .ok (integerValue n)
  | .float x => .ok (.float x)
  | .string s => .ok (.string s)
  | .sequence items => do
      let vs ← itemValues items
      .ok (.map (.sequence vs))
  | .mapping entries => do
      let es ← entryValues entries
      .ok (.map (.ofList es))
  | .tagged _ v => v.toValue

def itemValues : List Yaml → Except String (List Value)
  | [] => .ok []
  | y :: rest => do
      let v ← y.toValue
      let vs ← itemValues rest
      .ok (v :: vs)

def entryValues : List (Yaml × Yaml) → Except String (List (Key × Value))
  | [] => .ok []
  | (k, y) :: rest => do
      let k ← k.toKey
      let v ← y.toValue
      let vs ← entryValues rest
      .ok ((k, v) :: vs)

end

end Yaml

end Quill
