import DocQuery.Text.Hex

/-!
# White space, quoted texts and keys of TOML

Each function here takes what it reads off the front of the characters and hands on the rest.
-/

namespace DocQuery.Toml

/-! ## Characters and white space -/

def isBlank (c : Char) : Bool :=
  c = ' ' ∨ c = '\t'

/-- Characters that may not stand in a text as they are. -/
def isControl (c : Char) : Bool :=
  (c < ' ' ∧ c ≠ '\t') ∨ c = '\x7f'

def isBareKeyChar (c : Char) : Bool :=
  c.isAlphanum ∨ c = '_' ∨ c = '-'

/-- The characters behind a line break, if there is one. -/
def newline? : List Char → Option (List Char)
  | '\n' :: rest => some rest
  | '\r' :: '\n' :: rest => some rest
  | _ => none

def skipBlanks (cs : List Char) : List Char :=
  cs.dropWhile isBlank

/-- The characters behind blanks and a comment, none if the comment has a control character. -/
def skipComment? (cs : List Char) : Option (List Char) :=
  match skipBlanks cs with
  | '#' :: rest =>
    let after := rest.dropWhile fun c => !isControl c
    if after.isEmpty ∨ (newline? after).isSome then some after else none
  | rest => some rest

/-- The characters behind blanks, line breaks and comments. -/
def skipLines? (cs : List Char) : Option (List Char) :=
  lines cs (cs.length + 1)
where
  /-- Each round takes a line. -/
  lines (cs : List Char) : Nat → Option (List Char)
    | 0 => none
    | rounds + 1 => do
      let rest ← skipComment? cs
      match newline? rest with
      | some rest => lines rest rounds
      | none => return rest

/-! ## Texts -/

def shortEscape? : Char → Option Char
  | 'b' => some '\x08'
  | 't' => some '\t'
  | 'n' => some '\n'
  | 'f' => some '\x0c'
  | 'r' => some '\r'
  | '"' => some '"'
  | '\\' => some '\\'
  | _ => none

/-- The character behind a backslash. -/
def escape? : List Char → Option (Char × List Char)
  | 'u' :: rest => codePoint? 4 rest
  | 'U' :: rest => codePoint? 8 rest
  | c :: rest => (shortEscape? c).map (·, rest)
  | [] => none
where
  codePoint? (width : Nat) (rest : List Char) : Option (Char × List Char) := do
    guard (width ≤ rest.length)
    let n ← Hex.number? (rest.take width)
    guard n.isValidChar
    return (Char.ofNat n, rest.drop width)

/-- A text on one line up to its closing quote. Only between double quotes are there escapes. -/
def line? (quote : Char) (text : List Char) (cs : List Char) : Nat → Option (String × List Char)
  | 0 => none
  | steps + 1 =>
    match cs with
    | [] => none
    | c :: rest =>
      if c = quote then some (String.ofList text.reverse, rest)
      else if c = '\\' ∧ quote = '"' then
        (escape? rest).bind fun (escaped, rest) => line? quote (escaped :: text) rest steps
      else if isControl c then none
      else line? quote (c :: text) rest steps

/-- The characters behind blanks and line breaks. -/
def skipWhite : List Char → List Char
  | '\r' :: '\n' :: rest => skipWhite rest
  | c :: rest => if isBlank c ∨ c = '\n' then skipWhite rest else c :: rest
  | [] => []

/-- The characters behind a backslash at the end of a line and the white space behind it. -/
def joinedLine? (cs : List Char) : Option (List Char) :=
  (newline? (skipBlanks cs)).map skipWhite

/-- A text of several lines up to its three closing quotes, which may have up to two quotes of the
text right before them. -/
def block? (quote : Char) (text : List Char) (cs : List Char) : Nat → Option (String × List Char)
  | 0 => none
  | steps + 1 =>
    match cs with
    | [] => none
    | c :: rest =>
      if c = quote then
        let count := (cs.takeWhile (· = quote)).length
        if count < 3 then block? quote (c :: text) rest steps
        else if count ≤ 5 then
          let text := List.replicate (count - 3) quote ++ text
          some (String.ofList text.reverse, cs.drop count)
        else none
      else if c = '\\' ∧ quote = '"' then
        match joinedLine? rest with
        | some rest => block? quote text rest steps
        | none =>
          (escape? rest).bind fun (escaped, rest) => block? quote (escaped :: text) rest steps
      else
        match newline? cs with
        | some rest => block? quote ('\n' :: text) rest steps
        | none => if isControl c then none else block? quote (c :: text) rest steps

/-- A text in any of the four kinds of quotes. -/
def text? (cs : List Char) : Option (String × List Char) :=
  let steps := cs.length + 1
  match cs with
  | '"' :: '"' :: '"' :: rest => block? '"' [] ((newline? rest).getD rest) steps
  | '\'' :: '\'' :: '\'' :: rest => block? '\'' [] ((newline? rest).getD rest) steps
  | '"' :: rest => line? '"' [] rest steps
  | '\'' :: rest => line? '\'' [] rest steps
  | _ => none

/-! ## Keys -/

def simpleKey? (cs : List Char) : Option (String × List Char) :=
  match cs with
  | '"' :: rest => line? '"' [] rest (cs.length + 1)
  | '\'' :: rest => line? '\'' [] rest (cs.length + 1)
  | _ =>
    let key := cs.takeWhile isBareKeyChar
    if key.isEmpty then none else some (String.ofList key, cs.drop key.length)

/-- How many keys a dotted key may have, and how deep values may be nested. -/
def maxDepth : Nat :=
  79

/-- Keys with points between them, and the characters behind them and behind blanks. -/
def dottedKey? (cs : List Char) : Option (List String × List Char) :=
  keys cs maxDepth
where
  keys (cs : List Char) : Nat → Option (List String × List Char)
    | 0 => none
    | count + 1 => do
      let (key, rest) ← simpleKey? (skipBlanks cs)
      match skipBlanks rest with
      | '.' :: rest =>
        let (more, rest) ← keys rest count
        return (key :: more, rest)
      | rest => return ([key], rest)

end DocQuery.Toml
