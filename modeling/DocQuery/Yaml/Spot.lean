/-!
# Text with places

A text is read as a list of spots, each a character with its line and column. The list ends with a
spot that holds `endMark`, a character that no text may contain, so that the place where the text
ends is known as well.
-/

namespace DocQuery.Yaml

structure Spot where
  char : Char
  line : Nat
  column : Nat
  /-- How many characters stand before. -/
  offset : Nat

/-- Stands at the end of every text. -/
def endMark : Char :=
  '\x00'

/-- Characters that end a line. -/
def isBreak (c : Char) : Bool :=
  c = '\n' ∨ c = '\r' ∨ c = '\u0085' ∨ c = '\u2028' ∨ c = '\u2029'

/-- White space within a line. -/
def isBlank (c : Char) : Bool :=
  c = ' ' ∨ c = '\t'

def isBreakOrEnd (c : Char) : Bool :=
  isBreak c || c = endMark

def isGap (c : Char) : Bool :=
  isBlank c || isBreakOrEnd c

/-- Characters of names: of anchors, tag handles and directives. -/
def isWordChar (c : Char) : Bool :=
  c.isAlphanum || c = '_' || c = '-'

/-- Characters that a text may contain. -/
def isAllowed (c : Char) : Bool :=
  c = '\t' || c = '\n' || c = '\r' || c = '\u0085' || (' ' ≤ c && c ≤ '~') ||
    (0xa0 ≤ c.toNat && c.toNat ≤ 0xfffd) || 0x10000 ≤ c.toNat

namespace Spot

/-- The spots of a text that starts at the given place. A carriage return and a line feed end one
line together. -/
def locate (line column offset : Nat) : List Char → List Spot
  | [] => [⟨endMark, line, column, offset⟩]
  | '\r' :: '\n' :: rest =>
    ⟨'\r', line, column, offset⟩ :: ⟨'\n', line, column + 1, offset + 1⟩ ::
      locate (line + 1) 0 (offset + 2) rest
  | c :: rest =>
    ⟨c, line, column, offset⟩ ::
      if isBreak c then locate (line + 1) 0 (offset + 1) rest
      else locate line (column + 1) (offset + 1) rest

/-- The spots of a text, unless it holds a character that no text may contain. -/
def ofText? (text : List Char) : Option (List Spot) :=
  if text.all isAllowed then some (locate 0 0 0 text) else none

end Spot

abbrev Spots := List Spot

namespace Spots

/-- The character at the front, or `i` places behind it. -/
def charAt (spots : Spots) (i : Nat) : Char :=
  (spots[i]?.map Spot.char).getD endMark

def current (spots : Spots) : Char :=
  spots.charAt 0

def column (spots : Spots) : Nat :=
  (spots.head?.map Spot.column).getD 0

def line (spots : Spots) : Nat :=
  (spots.head?.map Spot.line).getD 0

def offset (spots : Spots) : Nat :=
  (spots.head?.map Spot.offset).getD 0

/-- Whether the text here starts with `word`. -/
def startsWith (spots : Spots) (word : List Char) : Bool :=
  (spots.take word.length).map Spot.char == word

def skipWhile (spots : Spots) (p : Char → Bool) : Spots :=
  spots.dropWhile (p ·.char)

def takeWhile (spots : Spots) (p : Char → Bool) : List Char :=
  (List.takeWhile (p ·.char) spots).map Spot.char

/-- A line break read as part of a text: the line separators of Unicode are kept, all others become
a line feed. -/
def breakText : Char → List Char
  | '\u2028' => ['\u2028']
  | '\u2029' => ['\u2029']
  | _ => ['\n']

/-- What follows the line break that starts with `c` and goes on with `spots`. -/
def afterBreak (c : Char) (spots : Spots) : Spots :=
  if c = '\r' ∧ spots.current = '\n' then spots.drop 1 else spots

/-- The text after a line break at the front, if there is one. -/
def skipBreak : Spots → Spots
  | [] => []
  | s :: rest => if isBreak s.char then afterBreak s.char rest else s :: rest

/-- Whether the line that starts here marks the start or the end of a document. -/
def atDocumentMark (spots : Spots) : Bool :=
  spots.column == 0 && (spots.startsWith ['-', '-', '-'] || spots.startsWith ['.', '.', '.']) &&
    isGap (spots.charAt 3)

end Spots

end DocQuery.Yaml
