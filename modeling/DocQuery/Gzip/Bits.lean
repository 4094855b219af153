/-!
# Bits of a byte sequence

Compressed data is read bit by bit, the lowest bit of a byte first.
-/

namespace DocQuery.Gzip

/-- The bits that are left of a byte sequence. -/
structure Bits where
  bytes : List UInt8
  /-- How many bits of the first byte have been read. -/
  used : Nat := 0

namespace Bits

def bit? (b : Bits) : Option (Nat × Bits) :=
  match b.bytes with
  | [] => none
  | byte :: rest =>
    some ((byte.toNat.testBit b.used).toNat, if b.used = 7 then ⟨rest, 0⟩ else ⟨byte :: rest, b.used + 1⟩)

/-- A number of `count` bits, the lowest first. -/
def number? (b : Bits) : Nat → Option (Nat × Bits)
  | 0 => some (0, b)
  | count + 1 => do
    let (low, b) ← b.bit?
    let (high, b) ← b.number? count
    return (low + 2 * high, b)

/-- The bytes behind the one that is being read. -/
def align (b : Bits) : List UInt8 :=
  if b.used = 0 then b.bytes else b.bytes.drop 1

end Bits

end DocQuery.Gzip
