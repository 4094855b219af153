import DocQuery.Gzip.Huffman

/-!
# Deflated data

Data is a list of blocks. A block is stored as it is or coded by symbols: bytes, the end of the
block, and copies of what was written before, given by a length and a distance.
-/

namespace DocQuery.Gzip

/-- What was written so far, and the bits that are left. -/
structure Progress where
  output : Array UInt8
  input : Bits

/-- The least length of each copy symbol and its number of further bits. -/
def lengthTable : List (Nat × Nat) :=
  [(3, 0), (4, 0), (5, 0), (6, 0), (7, 0), (8, 0), (9, 0), (10, 0), (11, 1), (13, 1), (15, 1),
    (17, 1), (19, 2), (23, 2), (27, 2), (31, 2), (35, 3), (43, 3), (51, 3), (59, 3), (67, 4),
    (83, 4), (99, 4), (115, 4), (131, 5), (163, 5), (195, 5), (227, 5), (258, 0)]

/-- The least distance of each distance symbol and its number of further bits. -/
def distanceTable : List (Nat × Nat) :=
  [(1, 0), (2, 0), (3, 0), (4, 0), (5, 1), (7, 1), (9, 2), (13, 2), (17, 3), (25, 3), (33, 4),
    (49, 4), (65, 5), (97, 5), (129, 6), (193, 6), (257, 7), (385, 7), (513, 8), (769, 8),
    (1025, 9), (1537, 9), (2049, 10), (3073, 10), (4097, 11), (6145, 11), (8193, 12), (12289, 12),
    (16385, 13), (24577, 13)]

/-- The number that a symbol of `table` and the bits behind it stand for. -/
def entry? (table : List (Nat × Nat)) (symbol : Nat) (b : Bits) : Option (Nat × Bits) := do
  let (least, bits) ← table[symbol]?
  let (more, b) ← b.number? bits
  return (least + more, b)

/-- Appends `length` bytes that start `distance` before the end; they may be among those just
written. -/
def copy? (output : Array UInt8) (distance : Nat) : Nat → Option (Array UInt8)
  | 0 => some output
  | length + 1 =>
    if distance ≤ output.size then
      match output[output.size - distance]? with
      | some byte => copy? (output.push byte) distance length
      | none => none
    else none

/-- Reads symbols to the end of the block. Each takes at least one bit, so `steps` need not be more
than there are bits. -/
def symbols? (literals distances : Code) (p : Progress) : Nat → Option Progress
  | 0 => none
  | steps + 1 => do
    let (symbol, input) ← literals.symbol? p.input
    if symbol < 256 then
      symbols? literals distances ⟨p.output.push symbol.toUInt8, input⟩ steps
    else if symbol = 256 then return { p with input }
    else
      let (length, input) ← entry? lengthTable (symbol - 257) input
      let (symbol, input) ← distances.symbol? input
      let (distance, input) ← entry? distanceTable symbol input
      symbols? literals distances ⟨← copy? p.output distance length, input⟩ steps

/-- A stored block: its length, the complement of the length, and the bytes. -/
def stored? (p : Progress) : Option Progress :=
  match p.input.align with
  | a :: b :: c :: d :: rest =>
    let length := a.toNat + 256 * b.toNat
    if a ^^^ c = 255 ∧ b ^^^ d = 255 ∧ length ≤ rest.length then
      some ⟨p.output ++ (rest.take length).toArray, ⟨rest.drop length, 0⟩⟩
    else none
  | _ => none

def fixedLiterals : Code :=
  .ofLengths (List.replicate 144 8 ++ List.replicate 112 9 ++ List.replicate 24 7 ++
    List.replicate 8 8)

def fixedDistances : Code :=
  .ofLengths (List.replicate 32 5)

/-- The symbols of code lengths in the order in which their own lengths are given. -/
def lengthOrder : List Nat :=
  [16, 17, 18, 0, 8, 7, 9, 6, 10, 5, 11, 4, 12, 3, 13, 2, 14, 1, 15]

/-- Reads `count` numbers of three bits. -/
def threeBits? (b : Bits) : Nat → Option (List Nat × Bits)
  | 0 => some ([], b)
  | count + 1 => do
    let (n, b) ← b.number? 3
    let (ns, b) ← threeBits? b count
    return (n :: ns, b)

/-- Reads code lengths until there are `count`; `lengths` are those read, last first. Some symbols
repeat the last length or zero. -/
def lengths? (code : Code) (count : Nat) (lengths : List Nat) (b : Bits) :
    Nat → Option (List Nat × Bits)
  | 0 => none
  | steps + 1 => do
    if lengths.length = count then return (lengths.reverse, b)
    else if count < lengths.length then none
    else
      let (symbol, b) ← code.symbol? b
      if symbol < 16 then lengths? code count (symbol :: lengths) b steps
      else
        let (length, least, bits) ←
          match symbol, lengths with
          | 16, last :: _ => some (last, 3, 2)
          | 17, _ => some (0, 3, 3)
          | 18, _ => some (0, 11, 7)
          | _, _ => none
        let (more, b) ← b.number? bits
        lengths? code count (List.replicate (least + more) length ++ lengths) b steps

/-- A code in which every bit sequence can be read, or which has at most one symbol. -/
def isUsable (c : Code) : Bool :=
  c.isComplete || c.size ≤ 1

/-- The two codes that a block brings along. -/
def codes? (b : Bits) : Option ((Code × Code) × Bits) := do
  let (literals, b) ← b.number? 5
  let (distances, b) ← b.number? 5
  let (lengths, b) ← b.number? 4
  let (given, b) ← threeBits? b (lengths + 4)
  let table := lengthOrder.zip given
  let code := Code.ofLengths ((List.range 19).map fun symbol => (table.lookup symbol).getD 0)
  if !code.isComplete then none
  else
    let count := literals + 257 + (distances + 1)
    let (all, b) ← lengths? code count [] b (count + 1)
    let literalCode := Code.ofLengths (all.take (literals + 257))
    let distanceCode := Code.ofLengths (all.drop (literals + 257))
    if isUsable literalCode && isUsable distanceCode then return ((literalCode, distanceCode), b)
    else none

/-- Reads blocks to the last one. -/
def blocks? (p : Progress) (symbolLimit : Nat) : Nat → Option Progress
  | 0 => none
  | steps + 1 => do
    let (last, input) ← p.input.number? 1
    let (kind, input) ← input.number? 2
    let p := { p with input }
    let p ← match kind with
      | 0 => stored? p
      | 1 => symbols? fixedLiterals fixedDistances p symbolLimit
      | 2 => do
        let ((literals, distances), input) ← codes? p.input
        symbols? literals distances { p with input } symbolLimit
      | _ => none
    if last = 1 then return p else blocks? p symbolLimit steps

/-- What the data at the start of `bytes` was before it was deflated, and the bytes behind it. -/
def inflate? (bytes : List UInt8) : Option (List UInt8 × List UInt8) := do
  let bits := 8 * bytes.length
  let p ← blocks? ⟨#[], ⟨bytes, 0⟩⟩ (bits + 1) (bits + 1)
  return (p.output.toList, p.input.align)

end DocQuery.Gzip
