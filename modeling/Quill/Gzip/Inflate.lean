import Quill.Gzip.Codebook

/-!
# Deflate streams

A stream is a series of blocks: bytes as they are, or symbols of a prefix code that stand for
bytes and for repetitions of earlier output.  The prefix codes are fixed or described at the
start of the block.
-/

namespace Quill.Gzip

/-- The symbol that ends a block. -/
def endOfBlock : Nat := 256

/-- The extra bits and the least value of the lengths for the symbols from 257 on. -/
def lengthClasses : List (Nat × Nat) :=
  [(0, 3), (0, 4), (0, 5), (0, 6), (0, 7), (0, 8), (0, 9), (0, 10), (1, 11), (1, 13),
   (1, 15), (1, 17), (2, 19), (2, 23), (2, 27), (2, 31), (3, 35), (3, 43), (3, 51), (3, 59),
   (4, 67), (4, 83), (4, 99), (4, 115), (5, 131), (5, 163), (5, 195), (5, 227), (0, 258)]

/-- The extra bits and the least value of the distances. -/
def distanceClasses : List (Nat × Nat) :=
  [(0, 1), (0, 2), (0, 3), (0, 4), (1, 5), (1, 7), (2, 9), (2, 13), (3, 17), (3, 25),
   (4, 33), (4, 49), (5, 65), (5, 97), (6, 129), (6, 193), (7, 257), (7, 385), (8, 513),
   (8, 769), (9, 1025), (9, 1537), (10, 2049), (10, 3073), (11, 4097), (11, 6145),
   (12, 8193), (12, 12289), (13, 16385), (13, 24577)]

/-- Read the value of a class: its least value and what the extra bits add. -/
def readClass (classes : List (Nat × Nat)) (index : Nat) : Reader Nat :=
  match classes[index]? with
  | some (extra, least) => return least + (← readNat extra)
  | none => failure

/-- Append bytes that each repeat the one a distance back. -/
def repeatBack (distance : Nat) : Nat → Array UInt8 → Array UInt8
  | 0, out => out
  | n + 1, out => repeatBack distance n (out.push (out[out.size - distance]?.getD 0))

/-- The prefix codes of a block: one for bytes, lengths and the end, one for distances. -/
structure BlockCodes where
  literals : Codebook
  distances : Codebook

/-- Read the symbols of a block up to its end, at most as many as the first argument tells. -/
def readSymbols (codes : BlockCodes) : Nat → Array UInt8 → Reader (Array UInt8)
  | 0, _ => failure
  | steps + 1, out => do
      let symbol ← codes.literals.read
      if symbol < endOfBlock then readSymbols codes steps (out.push (UInt8.ofNat symbol))
      else if symbol = endOfBlock then return out
      else
        let length ← readClass lengthClasses (symbol - endOfBlock - 1)
        let distance ← readClass distanceClasses (← codes.distances.read)
        require (distance ≤ out.size)
        readSymbols codes steps (repeatBack distance length out)

/-- The codes of blocks that do not describe them. -/
def fixedCodes? : Option BlockCodes := do
  let literals ← Codebook.ofLengths? false
    (List.replicate 144 8 ++ List.replicate 112 9 ++ List.replicate 24 7 ++ List.replicate 8 8)
  let distances ← Codebook.ofLengths? false (List.replicate 32 5)
  return ⟨literals, distances⟩

/-- The order in which the lengths of the codewords for lengths are given. -/
def lengthOrder : List Nat :=
  [16, 17, 18, 0, 8, 7, 9, 6, 10, 5, 11, 4, 12, 3, 13, 2, 14, 1, 15]

/-- Read several numbers of `width` bits. -/
def readNats (width : Nat) : Nat → Reader (List Nat)
  | 0 => return []
  | n + 1 => do
      let v ← readNat width
      let rest ← readNats width n
      return v :: rest

/-- Read a length, or the repetition of the last one or of zero; the second part tells how often
it stands beyond the first time. -/
def readLengthRun (code : Codebook) (last : Option Nat) : Reader (Nat × Nat) := do
  let symbol ← code.read
  if symbol < 16 then return (symbol, 0)
  else if symbol = 16 then
    match last with
    | some length => return (length, 2 + (← readNat 2))
    | none => failure
  else if symbol = 17 then return (0, 2 + (← readNat 3))
  else return (0, 10 + (← readNat 7))

/-- Read the lengths that are still missing, behind those read so far, the newest first. -/
def readLengths (code : Codebook) : Nat → List Nat → Reader (List Nat)
  | 0, known => return known.reverse
  | missing + 1, known => do
      let (length, more) ← readLengthRun code known.head?
      require (more ≤ missing)
      readLengths code (missing - more) (List.replicate (more + 1) length ++ known)
termination_by missing => missing
decreasing_by omega

/-- The greatest number of codewords for bytes, lengths and the end. -/
def maxLiterals : Nat := 286

/-- The greatest number of codewords for distances. -/
def maxDistances : Nat := 30

/-- Read the description of the codes of a block. -/
def readCodes : Reader BlockCodes := do
  let literalCount := 257 + (← readNat 5)
  let distanceCount := 1 + (← readNat 5)
  let lengthCount := 4 + (← readNat 4)
  require (literalCount ≤ maxLiterals && distanceCount ≤ maxDistances)
  let given ← readNats 3 lengthCount
  let lengthOf (symbol : Nat) : Nat :=
    (((lengthOrder.zip given).find? (·.1 = symbol)).map (·.2)).getD 0
  let code ← (Codebook.ofLengths? false ((List.range 19).map lengthOf) : Option Codebook)
  let lengths ← readLengths code (literalCount + distanceCount) []
  let literals ← (Codebook.ofLengths? true (lengths.take literalCount) : Option Codebook)
  let distances ← (Codebook.ofLengths? true (lengths.drop literalCount) : Option Codebook)
  return ⟨literals, distances⟩

/-- Read the bytes of a block that holds them as they are. -/
def readStored (out : Array UInt8) : Reader (Array UInt8) := do
  alignToByte
  let length ← readNat 16
  let complement ← readNat 16
  require (length + complement = 0xffff)
  return out ++ (← readBytes length)

/-- Read the contents of a block of the given type behind earlier output. -/
def readBlock (type : Nat) (out : Array UInt8) : Reader (Array UInt8) := do
  let steps := (← get).length + 1
  match type with
  | 0 => readStored out
  | 1 => readSymbols (← (fixedCodes? : Option BlockCodes)) steps out
  | 2 => readSymbols (← readCodes) steps out
  | _ => failure

/-- Read blocks up to the last one, at most as many as the first argument tells. -/
def readBlocks : Nat → Array UInt8 → Reader (Array UInt8)
  | 0, _ => failure
  | blocks + 1, out => do
      let isLast ← readNat 1
      let type ← readNat 2
      let out ← readBlock type out
      if isLast = 1 then return out else readBlocks blocks out

/-- Read a deflate stream.  Every block takes at least one bit. -/
def readDeflated : Reader (List UInt8) := do
  let blocks := (← get).length + 1
  return (← readBlocks blocks #[]).toList

/-- The greatest number of bytes in a block that holds them as they are. -/
def maxStored : Nat := 0xffff

/-- The number of words of sixteen bits. -/
def wordCount : Nat := 0x10000

/-- A number of sixteen bits, the low byte first. -/
def word16 (n : Nat) : List UInt8 :=
  [UInt8.ofNat n, UInt8.ofNat (n / 256)]

/-- A block that holds bytes as they are. -/
def storedBlock (isLast : Bool) (bytes : List UInt8) : List UInt8 :=
  (if isLast then 1 else 0) :: (word16 bytes.length ++ word16 (maxStored - bytes.length) ++ bytes)

/-- A deflate stream that holds bytes as they are. -/
def deflateStored (bytes : List UInt8) : List UInt8 :=
  if bytes.length ≤ maxStored then storedBlock true bytes
  else storedBlock false (bytes.take maxStored) ++ deflateStored (bytes.drop maxStored)
termination_by bytes.length
decreasing_by
  have : maxStored = 0xffff := rfl
  rw [List.length_drop]
  omega

end Quill.Gzip
