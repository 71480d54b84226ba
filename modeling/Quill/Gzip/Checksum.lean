/-!
# Cyclic redundancy checks

The 32-bit check sum of gzip members: the remainder of a division of polynomials over the field
of two elements, a bit at a time, with the bits of all words in reverse order.
-/

namespace Quill.Gzip

/-- The divisor without its leading term, in reverse order. -/
def checksumDivisor : UInt32 := 0xedb88320

/-- Move a remainder on by one bit. -/
def shiftChecksum (c : UInt32) : UInt32 :=
  if c &&& 1 = 1 then (c >>> 1) ^^^ checksumDivisor else c >>> 1

/-- Move a remainder on by one byte. -/
def feedChecksum (c : UInt32) (b : UInt8) : UInt32 :=
  (List.range 8).foldl (fun c _ => shiftChecksum c) (c ^^^ b.toUInt32)

/-- The check sum of a byte sequence. -/
def checksum (bytes : List UInt8) : UInt32 :=
  bytes.foldl feedChecksum 0xffffffff ^^^ 0xffffffff

end Quill.Gzip
