/-!
# Checksums

The 32-bit cyclic redundancy check of a byte sequence, bit by bit with the reflected polynomial.
-/

namespace DocQuery.Gzip

/-- One bit of the remainder. -/
def crcShift (r : UInt32) : UInt32 :=
  if r &&& 1 = 1 then (r >>> 1) ^^^ 0xedb88320 else r >>> 1

def crcByte (r : UInt32) (byte : UInt8) : UInt32 :=
  (List.range 8).foldl (fun r _ => crcShift r) (r ^^^ byte.toUInt32)

def crc32 (bytes : List UInt8) : UInt32 :=
  bytes.foldl crcByte 0xffffffff ^^^ 0xffffffff

end DocQuery.Gzip
