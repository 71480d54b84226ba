import Quill.Gzip.Bits

/-!
# Codebooks

Prefix codes as binary trees with a symbol at each leaf.  The canonical code of given lengths
gives shorter codewords, and for one length smaller symbols, the earlier leaves; its tree is
filled from left to right.
-/

namespace Quill.Gzip

/-- A prefix code. -/
inductive Codebook where
  /-- No codeword starts here. -/
  | empty
  | leaf (symbol : Nat)
  /-- Codewords go on with a zero or a one. -/
  | node (zero one : Codebook)

namespace Codebook

/-- The greatest length of a codeword. -/
def maxLength : Nat := 15

/-- The symbols that have a codeword, with its length, in the order of the leaves. -/
def sortedSymbols (lengths : List Nat) : List (Nat × Nat) :=
  (List.range maxLength).flatMap fun n =>
    lengths.zipIdx.filterMap fun (length, symbol) =>
      if length = n + 1 then some (symbol, length) else none

/-- The part of a code tree at the given depth that takes its leaves from the front of a list,
and the symbols left over.  The depths that remain bound the recursion. -/
def fill : Nat → Nat → List (Nat × Nat) → Codebook × List (Nat × Nat)
  | _, _, [] => (.empty, [])
  | remaining, depth, (symbol, length) :: rest =>
      if length ≤ depth then (.leaf symbol, rest)
      else
        match remaining with
        | 0 => (.empty, (symbol, length) :: rest)
        | remaining + 1 =>
            let (zero, rest) := fill remaining (depth + 1) ((symbol, length) :: rest)
            let (one, rest) := fill remaining (depth + 1) rest
            (.node zero one, rest)

/-- Whether every bit sequence runs into a leaf. -/
def isComplete : Codebook → Bool
  | .empty => false
  | .leaf _ => true
  | .node zero one => zero.isComplete && one.isComplete

/-- The canonical code with the given length for each symbol, zero for symbols without a
codeword.  There must be room for every codeword, and none left; a code of at most one codeword
may leave room if `sparse` allows it. -/
def ofLengths? (sparse : Bool) (lengths : List Nat) : Option Codebook :=
  let symbols := sortedSymbols lengths
  let (book, left) := fill maxLength 0 symbols
  if left.isEmpty && (book.isComplete || (sparse && symbols.length ≤ 1)) then some book else none

/-- Read a codeword and give its symbol. -/
def read : Codebook → Reader Nat
  | .leaf symbol, bits => some (symbol, bits)
  | .node zero one, b :: bits => if b then one.read bits else zero.read bits
  | _, _ => none

end Codebook

end Quill.Gzip
