import DocQuery.Gzip.Crc
import DocQuery.Gzip.Inflate

/-!
# Gzip members

A member is a header, deflated data, and the checksum and the length of what was deflated. Only the
first member of a file is read.
-/

namespace DocQuery.Gzip

/-- The two bytes that every gzip file starts with. -/
def magic : List UInt8 :=
  [0x1f, 0x8b]

/-- The bytes behind the first zero. -/
def skipText? : List UInt8 → Option (List UInt8)
  | [] => none
  | byte :: rest => if byte = 0 then some rest else skipText? rest

/-- The bytes behind a field that starts with its length in two bytes. -/
def skipField? : List UInt8 → Option (List UInt8)
  | low :: high :: rest =>
    let length := low.toNat + 256 * high.toNat
    if length ≤ rest.length then some (rest.drop length) else none
  | _ => none

/-- The bytes behind a checksum of the header, which must be right. -/
def skipHeaderCrc? (all rest : List UInt8) : Option (List UInt8) :=
  match rest with
  | low :: high :: after =>
    let crc := (crc32 (all.take (all.length - rest.length))).toNat % 0x10000
    if low.toNat + 256 * high.toNat = crc then some after else none
  | _ => none

/-- The bytes behind the header. Its flags say which of the optional fields there are, in this
order: extra data, a name, a comment, a checksum. -/
def skipHeader? (bytes : List UInt8) : Option (List UInt8) := do
  match bytes with
  | 0x1f :: 0x8b :: 8 :: flags :: _ :: _ :: _ :: _ :: _ :: _ :: rest =>
    let has (bit : Nat) : Bool := flags.toNat.testBit bit
    if 32 ≤ flags.toNat then none
    else
      let rest ← if has 2 then skipField? rest else some rest
      let rest ← if has 3 then skipText? rest else some rest
      let rest ← if has 4 then skipText? rest else some rest
      if has 1 then skipHeaderCrc? bytes rest else some rest
  | _ => none

/-- The number that the first four bytes stand for, the lowest first. -/
def word? : List UInt8 → Option (Nat × List UInt8)
  | a :: b :: c :: d :: rest =>
    some (a.toNat + 256 * (b.toNat + 256 * (c.toNat + 256 * d.toNat)), rest)
  | _ => none

/-- The content of the first member. -/
def decompress? (bytes : List UInt8) : Option (List UInt8) := do
  let (content, trailer) ← inflate? (← skipHeader? bytes)
  let (crc, trailer) ← word? trailer
  let (length, _) ← word? trailer
  if crc = (crc32 content).toNat ∧ length = content.length % UInt32.size then return content
  else none

end DocQuery.Gzip
