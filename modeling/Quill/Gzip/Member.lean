import Quill.Gzip.Checksum
import Quill.Gzip.Inflate

/-!
# Gzip members

A member is a header, a deflate stream, and the check sum and length of its contents.  Reading
takes the first member of a byte stream and passes over what follows it.
-/

namespace Quill.Gzip

/-- The bytes every member starts with. -/
def magic : List UInt8 := [0x1f, 0x8b]

/-- The number of the only compression method. -/
def deflateMethod : UInt8 := 8

/-- The optional parts of a header, by the bits that announce them. -/
structure HeaderFlags where
  checksum : Bool
  extra : Bool
  name : Bool
  comment : Bool

namespace HeaderFlags

/-- The flags of a byte; the three highest bits are reserved and must be clear. -/
def ofByte? (b : UInt8) : Option HeaderFlags :=
  if b.toNat < 32 then
    let bit := b.toNat.testBit
    some { checksum := bit 1, extra := bit 2, name := bit 3, comment := bit 4 }
  else none

end HeaderFlags

/-- Pass over the bytes up to the next zero, at most as many as the argument tells. -/
def skipText : Nat → Reader Unit
  | 0 => failure
  | n + 1 => do
      if (← readByte) = 0 then return else skipText n

/-- Pass over bytes whose number comes first. -/
def skipExtra : Reader Unit := do
  let length ← readNat 16
  let _ ← readBytes length

/-- Carry out a reader if the condition holds. -/
def readIf (p : Bool) (r : Reader Unit) : Reader Unit :=
  if p then r else return

/-- Read a header in front of its own check sum; the flags tell whether there is one. -/
def readHeaderFields : Reader HeaderFlags := do
  require ((← readBytes 2) == magic)
  require ((← readByte) == deflateMethod)
  let flags ← (HeaderFlags.ofByte? (← readByte) : Option HeaderFlags)
  -- the time, the level and the system
  let _ ← readBytes 6
  readIf flags.extra skipExtra
  let bits := (← get).length
  readIf flags.name (skipText bits)
  readIf flags.comment (skipText bits)
  return flags

/-- Read the header of a member at the front of a byte stream. -/
def readHeader (bytes : List UInt8) : Reader Unit := do
  let flags ← readHeaderFields
  if flags.checksum then
    let header := bytes.take (bytes.length - (← get).length / 8)
    let sum ← readNat 16
    require ((checksum header).toNat % wordCount == sum)

/-- The contents of the first member of a byte stream. -/
def decompress? (bytes : List UInt8) : Option (List UInt8) := do
  let read : Reader (List UInt8) := do
    readHeader bytes
    let contents ← readDeflated
    alignToByte
    let sum ← readNat 32
    let length ← readNat 32
    require ((checksum contents).toNat == sum &&
      contents.length % (wordCount * wordCount) == length)
    return contents
  (read.run (streamBits bytes)).map (·.1)

/-- A number of 32 bits, the low byte first. -/
def word32 (n : Nat) : List UInt8 :=
  word16 n ++ word16 (n / wordCount)

/-- A header without optional parts, time and system. -/
def plainHeader : List UInt8 :=
  magic ++ [deflateMethod, 0, 0, 0, 0, 0, 0, 255]

/-- A member with the given contents. -/
def compress (contents : List UInt8) : List UInt8 :=
  plainHeader ++ deflateStored contents ++ word32 (checksum contents).toNat
    ++ word32 contents.length

/-- Whether a byte stream starts like a member. -/
def isCompressed (bytes : List UInt8) : Bool :=
  magic.isPrefixOf bytes

end Quill.Gzip
