import DocQuery.Gzip.Bits

/-!
# Prefix codes

A code is given by the length of each symbol's code word, zero for symbols that have none. Code
words of one length are consecutive numbers in the order of their symbols, and shorter words come
before longer ones.
-/

namespace DocQuery.Gzip

/-- The symbols with a code word of length one, two and so on up to fifteen. -/
structure Code where
  symbols : List (List Nat)

namespace Code

def ofLengths (lengths : List Nat) : Code :=
  ⟨(List.range 15).map fun i =>
    (lengths.zipIdx.filter fun entry => entry.1 = i + 1).map Prod.snd⟩

/-- How many symbols have a code word. -/
def size (c : Code) : Nat :=
  c.symbols.flatten.length

/-- Whether every sequence of fifteen bits starts with exactly one code word. -/
def isComplete (c : Code) : Bool :=
  c.symbols.foldl (fun words symbols => 2 * words + symbols.length) 0 == Nat.pow 2 15

/-- Reads a code word. `word` is what was read before, `first` the first code word of the length
that comes next and `lengths` the symbols from that length on. -/
def symbolFrom? (word first : Nat) (b : Bits) : List (List Nat) → Option (Nat × Bits)
  | [] => none
  | symbols :: longer => do
    let (bit, b) ← b.bit?
    let word := 2 * word + bit
    match symbols[word - first]? with
    | some symbol => return (symbol, b)
    | none => symbolFrom? word (2 * (first + symbols.length)) b longer

def symbol? (c : Code) (b : Bits) : Option (Nat × Bits) :=
  symbolFrom? 0 0 b c.symbols

end Code

end DocQuery.Gzip
