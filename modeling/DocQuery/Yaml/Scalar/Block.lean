import DocQuery.Yaml.Spot

/-!
# Block scalars

Content after `|` or `>` is what stands in the lines below that are indented deeply enough. After
`>` single line breaks between lines of text become spaces. What becomes of the line breaks at the
end is chosen by a sign in the header.
-/

namespace DocQuery.Yaml.BlockScalar

/-- What becomes of the line breaks at the end. -/
inductive Chomping where
  | strip
  /-- Only the first is kept. -/
  | clip
  | keep
  deriving DecidableEq

structure Header where
  chomping : Chomping
  /-- The indentation of the content beyond that of its parent, found out if absent. -/
  indentation : Option Nat

def chomping? : Char → Option Chomping
  | '-' => some .strip
  | '+' => some .keep
  | _ => none

/-- The digit of an indentation, which is not zero. -/
def indentation? (c : Char) : Option Nat :=
  if '1' ≤ c ∧ c ≤ '9' then some (c.toNat - '0'.toNat) else none

/-- The sign and the digit behind the indicator, in either order. -/
def header (spots : Spots) : Header × Spots :=
  match chomping? spots.current with
  | some chomping =>
    match indentation? (spots.charAt 1) with
    | some n => (⟨chomping, some n⟩, spots.drop 2)
    | none => (⟨chomping, none⟩, spots.drop 1)
  | none =>
    match indentation? spots.current with
    | some n =>
      match chomping? (spots.charAt 1) with
      | some chomping => (⟨chomping, some n⟩, spots.drop 2)
      | none => (⟨.clip, some n⟩, spots.drop 1)
    | none => (⟨.clip, none⟩, spots)

/-- What was read so far. Lists are last first. -/
structure Progress where
  text : List Char := []
  /-- The break at the end of the last line of text. -/
  ending : List Char := []
  /-- The breaks of the empty lines behind it. -/
  more : List Char := []
  /-- Whether the last line of text started with a blank. -/
  blankStart : Bool := false
  /-- Whether the current line has text. -/
  inText : Bool := false
  /-- The column of the text, once known. -/
  indent : Option Nat
  /-- The furthest column reached while looking for the text. -/
  furthest : Nat := 0

/-- Starts a line of text: the break before it becomes a space if lines are folded there. -/
def Progress.beginLine (p : Progress) (literal : Bool) (column : Nat) (first : Char) : Progress :=
  let folds := !literal && p.ending == ['\n'] && !p.blankStart && !isBlank first
  let joint := if folds then (if p.more.isEmpty then [' '] else []) else p.ending
  { p with
    text := first :: (p.more ++ joint ++ p.text)
    ending := []
    more := []
    blankStart := isBlank first
    inText := true
    indent := some column }

def Progress.result (p : Progress) (chomping : Chomping) : String :=
  let text := match chomping with
    | .strip => p.text
    | .clip => p.ending ++ p.text
    | .keep => p.more ++ p.ending ++ p.text
  String.ofList text.reverse

/-- Reads lines. `least` is the least column that the text may have. -/
def readFrom (literal : Bool) (chomping : Chomping) (least : Nat) (p : Progress) :
    Spots → Option (String × Spots)
  | [] => none
  | s :: rest =>
    let c := s.char
    if p.inText then
      if c = endMark then some (p.result chomping, s :: rest)
      else if c = '\r' ∧ Spots.current rest = '\n' then
        readFrom literal chomping least p rest
      else if isBreak c then
        readFrom literal chomping least
          { p with ending := Spots.breakText c, inText := false } rest
      else readFrom literal chomping least { p with text := c :: p.text } rest
    else
      let before := p.indent.all (s.column < ·)
      if before ∧ c = ' ' then readFrom literal chomping least p rest
      else
        let p := { p with furthest := max p.furthest s.column }
        if before ∧ c = '\t' then none
        else if c = '\r' ∧ Spots.current rest = '\n' then
          readFrom literal chomping least p rest
        else if isBreak c then
          readFrom literal chomping least
            { p with more := Spots.breakText c ++ p.more } rest
        else
          let indent := p.indent.getD (max (max p.furthest least) 1)
          if c = endMark ∨ s.column ≠ indent then some (p.result chomping, s :: rest)
          else readFrom literal chomping least (p.beginLine literal indent c) rest

/-- Reads the scalar behind its indicator, inside a block indented by `parent`, if any. -/
def read (literal : Bool) (parent : Option Nat) (spots : Spots) : Option (String × Spots) :=
  let (header, rest) := header spots
  let rest := rest.skipWhile isBlank
  let rest := if rest.current = '#' then rest.skipWhile (!isBreakOrEnd ·) else rest
  if isBreakOrEnd rest.current then
    let indent := header.indentation.map (parent.getD 0 + ·)
    let least := (parent.map (· + 1)).getD 0
    readFrom literal header.chomping least { indent } rest.skipBreak
  else none

end DocQuery.Yaml.BlockScalar
