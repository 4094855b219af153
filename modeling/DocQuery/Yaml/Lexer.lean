import DocQuery.Yaml.Scalar.Block
import DocQuery.Yaml.Scalar.Plain
import DocQuery.Yaml.Scalar.Quoted
import DocQuery.Yaml.Token

/-!
# Lexing YAML

A text becomes a list of tokens. Two things are decided here that cannot be seen from a character
alone: where block collections start and end, by comparing columns, and what is a key. A scalar,
an anchor or a closing bracket may turn out to have been part of a key when a `:` comes up behind
it on the same line; the place of a possible key is remembered and the token `key` put there later.
-/

namespace DocQuery.Yaml

/-- Where a key may have started. -/
structure PossibleKey where
  /-- How many tokens come before the key. -/
  place : Nat
  line : Nat
  column : Nat
  offset : Nat
  /-- Whether what starts here has to be a key. -/
  required : Bool

structure Lexer where
  rest : Spots
  tokens : Array Token := #[]
  /-- The columns of the block collections that are open, innermost first. -/
  indents : List Nat := []
  /-- Whether a key may start here. -/
  keyAllowed : Bool := true
  /-- The possible key of each flow collection that is open, innermost first. -/
  flowKeys : List (Option PossibleKey) := []
  /-- The possible key outside of flow collections. -/
  blockKey : Option PossibleKey := none

namespace Lexer

def inFlow (l : Lexer) : Bool :=
  !l.flowKeys.isEmpty

def indent? (l : Lexer) : Option Nat :=
  l.indents.head?

def emit (l : Lexer) (t : Token) : Lexer :=
  { l with tokens := l.tokens.push t }

def skip (l : Lexer) (count : Nat) : Lexer :=
  { l with rest := l.rest.drop count }

/-- Whether the innermost block collection starts left of `column`. -/
def isIndented (l : Lexer) (column : Nat) : Bool :=
  l.indent?.all (· < column)

/-! ## Indentation -/

/-- Starts a block collection at `column`, unless one is open there, with its tokens inserted in
front of those from `place` on. -/
def openBlock (l : Lexer) (column : Nat) (place : Nat) (t : Token) : Lexer :=
  if !l.inFlow && l.isIndented column then
    { l with indents := column :: l.indents, tokens := l.tokens.insertIdxIfInBounds place t }
  else l

/-- How many of the open block collections start right of `column`. -/
def deeper (column : Nat) (indents : List Nat) : Nat :=
  (indents.takeWhile (column < ·)).length

/-- Ends `count` block collections. -/
def closeBlocks (l : Lexer) (count : Nat) : Lexer :=
  { l with
    indents := l.indents.drop count
    tokens := l.tokens ++ Array.replicate count Token.blockEnd }

/-- Ends the block collections that start right of `column`. -/
def closeBlocksTo (l : Lexer) (column : Nat) : Lexer :=
  if l.inFlow then l else l.closeBlocks (deeper column l.indents)

def closeAllBlocks (l : Lexer) : Lexer :=
  if l.inFlow then l else l.closeBlocks l.indents.length

/-! ## Possible keys -/

def key? (l : Lexer) : Option PossibleKey :=
  match l.flowKeys with
  | key :: _ => key
  | [] => l.blockKey

def setKey (l : Lexer) (key : Option PossibleKey) : Lexer :=
  match l.flowKeys with
  | _ :: keys => { l with flowKeys := key :: keys }
  | [] => { l with blockKey := key }

/-- Gives up the possible key, which must not have been required. -/
def dropKey (l : Lexer) : Option Lexer :=
  if l.key?.any (·.required) then none else some (l.setKey none)

/-- A key is written on one line and takes up to 1024 characters. -/
def isStale (l : Lexer) (key : PossibleKey) : Bool :=
  key.line < l.rest.line || key.offset + 1024 < l.rest.offset

/-- Gives up the possible keys that are too far back. -/
def dropStaleKeys (l : Lexer) : Option Lexer :=
  let stale (key : Option PossibleKey) : Bool := key.any l.isStale
  let lost (key : Option PossibleKey) : Bool := key.any fun k => l.isStale k && k.required
  if lost l.blockKey || l.flowKeys.any lost then none
  else
    let refresh (key : Option PossibleKey) := if stale key then none else key
    some { l with flowKeys := l.flowKeys.map refresh, blockKey := refresh l.blockKey }

/-- Remembers that a key may start here. -/
def saveKey (l : Lexer) : Option Lexer :=
  if l.keyAllowed then
    l.dropKey.map fun l => l.setKey <| some
      { place := l.tokens.size
        line := l.rest.line
        column := l.rest.column
        offset := l.rest.offset
        required := !l.inFlow && l.indent? == some l.rest.column }
  else some l

/-! ## Names and tags -/

/-- An alias or an anchor. -/
def lexName (l : Lexer) (make : String → Token) : Option Lexer := do
  let l ← l.saveKey
  let name := Spots.takeWhile (l.rest.drop 1) isWordChar
  let l := l.skip (1 + name.length)
  let c := l.rest.current
  if name.isEmpty || !(isGap c || ['?', ':', ',', ']', '}', '%', '@', '`'].contains c) then none
  else return { l.emit (make (String.ofList name)) with keyAllowed := false }

/-- Characters of a tag, more of them between `<` and `>`. -/
def isTagChar (verbatim : Bool) (c : Char) : Bool :=
  isWordChar c || "%;/?:@&=+$.!~*'()".toList.contains c || verbatim && ",[]".toList.contains c

/-- The bytes of a tag, whose percent escapes stand for one byte each. -/
def tagBytes? : List Char → Option (List UInt8)
  | [] => some []
  | '%' :: rest =>
    match rest with
    | a :: b :: rest =>
      match Hex.number? [a, b] with
      | some n => (tagBytes? rest).map (n.toUInt8 :: ·)
      | none => none
    | _ => none
  | c :: rest => (tagBytes? rest).map (String.utf8EncodeChar c ++ ·)

def tagText? (chars : List Char) : Option String :=
  (tagBytes? chars).bind fun bytes => String.fromUTF8? (ByteArray.mk bytes.toArray)

/-- The handle and the suffix of a tag, and how many characters they take. The handle is empty for
a tag given in full. -/
def tagParts? (spots : Spots) : Option (String × String × Nat) := do
  if spots.charAt 1 = '<' then
    let chars := Spots.takeWhile (spots.drop 2) (isTagChar true)
    if chars.isEmpty || spots.charAt (2 + chars.length) ≠ '>' then none
    else return ("", ← tagText? chars, 3 + chars.length)
  else
    let word := Spots.takeWhile (spots.drop 1) isWordChar
    if spots.charAt (1 + word.length) = '!' then
      let chars := Spots.takeWhile (spots.drop (2 + word.length)) (isTagChar false)
      if chars.isEmpty then none
      else
        return (String.ofList ('!' :: word ++ ['!']), ← tagText? chars,
          2 + word.length + chars.length)
    else
      let chars := Spots.takeWhile (spots.drop 1) (isTagChar false)
      if chars.isEmpty then return ("", "!", 1)
      else return ("!", ← tagText? chars, 1 + chars.length)

def lexTag (l : Lexer) : Option Lexer := do
  let l ← l.saveKey
  let (handle, suffix, length) ← tagParts? l.rest
  let l := l.skip length
  let c := l.rest.current
  if isGap c || l.inFlow && c = ',' then
    return { l.emit (.tag handle suffix) with keyAllowed := false }
  else none

/-! ## Directives -/

/-- A number of up to nine digits. -/
def versionNumber? (spots : Spots) : Option (Nat × Spots) :=
  let digits := spots.takeWhile Char.isDigit
  if digits.isEmpty || 9 < digits.length then none
  else some (Nat.ofDigitChars 10 digits 0, spots.drop digits.length)

/-- A tag handle: an exclamation mark alone, or one before and one after a word. -/
def handle? (spots : Spots) : Option (String × Spots) :=
  if spots.current ≠ '!' then none
  else
    let word := Spots.takeWhile (spots.drop 1) isWordChar
    if spots.charAt (1 + word.length) = '!' then
      some (String.ofList ('!' :: word ++ ['!']), spots.drop (2 + word.length))
    else if word.isEmpty then some ("!", spots.drop 1)
    else none

/-- The token of a directive by its name, and what follows on the line. -/
def directiveToken? (name : String) (spots : Spots) : Option (Token × Spots) := do
  let spots := spots.skipWhile isBlank
  if name = "YAML" then
    let (major, rest) ← versionNumber? spots
    if rest.current ≠ '.' then none
    else
      let (minor, rest) ← versionNumber? (rest.drop 1)
      return (.version major minor, rest)
  else if name = "TAG" then
    let (handle, rest) ← handle? spots
    if !isBlank rest.current then none
    else
      let rest := rest.skipWhile isBlank
      let chars := rest.takeWhile (isTagChar true)
      if chars.isEmpty then none
      else
        let after := rest.drop chars.length
        if isGap (Spots.current after) then return (.handle handle (← tagText? chars), after)
        else none
  else none

def lexDirective (l : Lexer) : Option Lexer := do
  let l ← l.closeAllBlocks.dropKey
  let name := Spots.takeWhile (l.rest.drop 1) isWordChar
  let after := l.rest.drop (1 + name.length)
  if name.isEmpty || !isGap (Spots.current after) then none
  else
    let (token, rest) ← directiveToken? (String.ofList name) after
    let rest := rest.skipWhile isBlank
    let rest := if rest.current = '#' then rest.skipWhile (!isBreakOrEnd ·) else rest
    if isBreakOrEnd rest.current then
      return { l.emit token with rest := rest.skipBreak, keyAllowed := false }
    else none

/-! ## Collections and entries -/

def lexDocumentMark (l : Lexer) (t : Token) : Option Lexer := do
  let l ← l.closeAllBlocks.dropKey
  return { (l.skip 3).emit t with keyAllowed := false }

def lexFlowStart (l : Lexer) (t : Token) : Option Lexer := do
  let l ← l.saveKey
  return { (l.skip 1).emit t with flowKeys := none :: l.flowKeys, keyAllowed := true }

def lexFlowEnd (l : Lexer) (t : Token) : Option Lexer := do
  let l ← l.dropKey
  return { (l.skip 1).emit t with flowKeys := l.flowKeys.drop 1, keyAllowed := false }

def lexFlowEntry (l : Lexer) : Option Lexer := do
  let l ← l.dropKey
  return { (l.skip 1).emit .flowEntry with keyAllowed := true }

def lexBlockEntry (l : Lexer) : Option Lexer := do
  if !l.inFlow && !l.keyAllowed then none
  else
    let l ← (l.openBlock l.rest.column l.tokens.size .blockSequence).dropKey
    return { (l.skip 1).emit .blockEntry with keyAllowed := true }

def lexKey (l : Lexer) : Option Lexer := do
  if !l.inFlow && !l.keyAllowed then none
  else
    let l ← (l.openBlock l.rest.column l.tokens.size .blockMapping).dropKey
    return { (l.skip 1).emit .key with keyAllowed := !l.inFlow }

/-- A `:` makes a key of what started at the possible key. Without one it stands for an empty key,
where a key may stand. -/
def lexValue (l : Lexer) : Option Lexer :=
  match l.key? with
  | some key =>
    let l := { l with tokens := l.tokens.insertIdxIfInBounds key.place .key }
    let l := (l.openBlock key.column key.place .blockMapping).setKey none
    some { (l.skip 1).emit .value with keyAllowed := false }
  | none =>
    if !l.inFlow && !l.keyAllowed then none
    else
      let l := l.openBlock l.rest.column l.tokens.size .blockMapping
      some { (l.skip 1).emit .value with keyAllowed := !l.inFlow }

/-! ## Scalars -/

def lexBlockScalar (l : Lexer) (literal : Bool) : Option Lexer := do
  let l ← l.dropKey
  let (text, rest) ← BlockScalar.read literal l.indent? (l.rest.drop 1)
  return { l.emit (.scalar text false) with rest, keyAllowed := true }

def lexQuoted (l : Lexer) (quote : Char) : Option Lexer := do
  let l ← l.saveKey
  let (text, rest) ← QuotedScalar.readFrom quote 0 [] .none (l.rest.drop 1)
  return { l.emit (.scalar text false) with rest, keyAllowed := false }

def lexPlain (l : Lexer) : Option Lexer := do
  let l ← l.saveKey
  let indent := (l.indent?.map (· + 1)).getD 0
  let result ← PlainScalar.readFrom l.inFlow indent [] .none true l.rest
  return { l.emit (.scalar result.text true) with
    rest := result.rest
    keyAllowed := result.lineEnded }

/-- Whether a plain scalar may start here. -/
def startsPlain (l : Lexer) : Bool :=
  let c := l.rest.current
  let next := l.rest.charAt 1
  !(isGap c || "-?:,[]\x7b\x7d#&*!|>'\"%@`".toList.contains c) ||
    c = '-' && !isBlank next || !l.inFlow && (c = '?' || c = ':') && !isGap next

/-! ## The whole text -/

/-- The lexer at the first spot that is neither white space nor part of a comment. Outside of flow
collections a key may start on a new line. Tabs are white space only where no key may start. -/
def skipSpace (l : Lexer) (inComment : Bool) : Spots → Lexer
  | [] => l
  | s :: rest =>
    let c := s.char
    if inComment ∧ !isBreakOrEnd c then skipSpace l true rest
    else if c = '#' then skipSpace l true rest
    else if c = '\ufeff' ∧ s.offset = 0 ∨ c = ' ' ∨ c = '\t' ∧ (l.inFlow ∨ !l.keyAllowed) then
      skipSpace l false rest
    else if c = '\r' ∧ Spots.current rest = '\n' then skipSpace l false rest
    else if isBreak c then
      skipSpace (if l.inFlow then l else { l with keyAllowed := true }) false rest
    else { l with rest := s :: rest }

/-- The next token, which starts right here. -/
def lexToken (l : Lexer) : Option Lexer :=
  let c := l.rest.current
  let next := l.rest.charAt 1
  if l.rest.column = 0 ∧ c = '%' then l.lexDirective
  else if l.rest.atDocumentMark then
    l.lexDocumentMark (if c = '-' then .documentStart else .documentEnd)
  else if c = '[' then l.lexFlowStart .flowSequence
  else if c = '{' then l.lexFlowStart .flowMapping
  else if c = ']' then l.lexFlowEnd .flowSequenceEnd
  else if c = '}' then l.lexFlowEnd .flowMappingEnd
  else if c = ',' then l.lexFlowEntry
  else if c = '-' ∧ isGap next then l.lexBlockEntry
  else if c = '?' ∧ (l.inFlow ∨ isGap next) then l.lexKey
  else if c = ':' ∧ (l.inFlow ∨ isGap next) then l.lexValue
  else if c = '*' then l.lexName .alias
  else if c = '&' then l.lexName .anchor
  else if c = '!' then l.lexTag
  else if c = '|' ∧ !l.inFlow then l.lexBlockScalar true
  else if c = '>' ∧ !l.inFlow then l.lexBlockScalar false
  else if c = '\'' ∨ c = '"' then l.lexQuoted c
  else if l.startsPlain then l.lexPlain
  else none

/-- The last token. The end of the text counts as the start of a line. -/
def finish (l : Lexer) : Option (Array Token) := do
  let l ← l.closeAllBlocks.dropKey
  return l.tokens.push .streamEnd

/-- Lexes to the end of the text, in at most as many steps as given. -/
def run (l : Lexer) : Nat → Option (Array Token)
  | 0 => none
  | steps + 1 => do
    let l ← (l.skipSpace false l.rest).dropStaleKeys
    let l := l.closeBlocksTo l.rest.column
    if l.rest.current = endMark then l.finish else run (← l.lexToken) steps

end Lexer

/-- The tokens of a text. Each takes at least one character. -/
def Token.ofText? (text : List Char) : Option (List Token) := do
  let rest ← Spot.ofText? text
  let tokens ← Lexer.run { rest } (rest.length + 1)
  return tokens.toList

end DocQuery.Yaml
