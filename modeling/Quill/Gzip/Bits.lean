/-!
# Reading bits

A byte stream as a list of bits, each byte from its lowest bit on.  A reader takes bits from the
front and fails when there are too few.
-/

namespace Quill.Gzip

/-- The bits still to read. -/
abbrev Bits := List Bool

/-- A reader of bits. -/
abbrev Reader := StateT Bits Option

/-- The eight bits of a byte, the lowest first. -/
def byteBits (b : UInt8) : Bits :=
  (List.range 8).map b.toNat.testBit

/-- The bits of a byte stream. -/
def streamBits (bytes : List UInt8) : Bits :=
  bytes.flatMap byteBits

/-- The number that bits denote, the lowest first. -/
def bitsValue : Bits → Nat
  | [] => 0
  | b :: rest => b.toNat + 2 * bitsValue rest

/-- Take a number of bits. -/
def takeBits : Nat → Bits → Option (Bits × Bits)
  | 0, bits => some ([], bits)
  | _ + 1, [] => none
  | n + 1, b :: bits => (takeBits n bits).map fun (taken, rest) => (b :: taken, rest)

/-- Read a number of `n` bits, the lowest first. -/
def readNat (n : Nat) : Reader Nat := fun bits =>
  (takeBits n bits).map fun (taken, rest) => (bitsValue taken, rest)

/-- Read a byte. -/
def readByte : Reader UInt8 := do
  return UInt8.ofNat (← readNat 8)

/-- Read bytes. -/
def readBytes : Nat → Reader (List UInt8)
  | 0 => return []
  | n + 1 => do
      let b ← readByte
      let rest ← readBytes n
      return b :: rest

/-- Pass over the bits up to the next byte. -/
def alignToByte : Reader Unit :=
  modify fun bits => bits.drop (bits.length % 8)

/-- Fail unless the condition holds. -/
def require (p : Bool) : Reader Unit :=
  if p then return else failure

end Quill.Gzip
