import DocQuery.Text.Hex
import DocQuery.Yaml.Scalar.Style

/-!
# Pages

A page is YAML text that is being written. It knows what stands on its last line as far as this
decides where the next thing goes: behind a blank, right there, or on a new line.
-/

namespace DocQuery.Yaml

structure Page where
  /-- What has been written, last character first. -/
  text : List Char := []
  column : Nat := 0
  /-- Whether nothing has to keep apart from what comes next. -/
  spaced : Bool := true
  /-- Whether the line has nothing but indentation and the marks of collections that start there. -/
  fresh : Bool := true

namespace Page

def put (p : Page) (c : Char) : Page :=
  { p with text := c :: p.text, column := p.column + 1 }

def putAll (p : Page) (cs : List Char) : Page :=
  cs.foldl put p

/-- Ends the line with the line break `c`. -/
def endLine (p : Page) (c : Char) : Page :=
  { p with text := c :: p.text, column := 0, fresh := true }

/-- Goes on at the column `indent`, of the next line if this one has got so far already. -/
def moveTo (p : Page) (indent : Nat) : Page :=
  let crowded := !p.fresh || decide (indent < p.column) || (p.column == indent && !p.spaced)
  let p := if crowded then p.endLine '\n' else p
  { p.putAll (List.replicate (indent - p.column) ' ') with spaced := true, fresh := true }

/-- Keeps what comes next apart from what is there. -/
def space (p : Page) : Page :=
  if p.spaced then p else p.put ' '

/-- The mark of an item or entry. More of the collection may start on its line. -/
def bullet (p : Page) (c : Char) : Page :=
  { p.space.put c with spaced := false }

/-- Something that is whole, and ends what can start on the line. -/
def closed (p : Page) : Page :=
  { p with spaced := false, fresh := false }

/-- Characters right behind what is there. -/
def attach (p : Page) (cs : List Char) : Page :=
  (p.putAll cs).closed

/-- Characters apart from what is there. -/
def word (p : Page) (cs : List Char) : Page :=
  p.space.attach cs

/-! ## Scalars -/

/-- Goes through `text` with `write` for the characters of its lines, the first of which is started
already unless `broken`. -/
def lines (write : Page → Char → Page) (indent : Nat) (p : Page) (broken : Bool) :
    List Char → Page × Bool
  | [] => (p, broken)
  | c :: rest =>
    if isBreak c then lines write indent (p.endLine c) true rest
    else
      let p := if broken then p.moveTo indent else p
      lines write indent { write p c with fresh := false } false rest

def single (p : Page) (indent : Nat) (text : List Char) : Page :=
  let quoted (p : Page) (c : Char) : Page := p.putAll (if c = '\'' then ['\'', '\''] else [c])
  let (p, broken) := lines quoted indent (p.word ['\'']) false text
  (if broken then p.moveTo indent else p).attach ['\'']

/-- The letter of an escape sequence that has one. -/
def escapeLetter? : Char → Option Char
  | '\x00' => some '0'
  | '\x07' => some 'a'
  | '\x08' => some 'b'
  | '\t' => some 't'
  | '\n' => some 'n'
  | '\x0b' => some 'v'
  | '\x0c' => some 'f'
  | '\r' => some 'r'
  | '\x1b' => some 'e'
  | '"' => some '"'
  | '\\' => some '\\'
  | '\u0085' => some 'N'
  | '\u2028' => some 'L'
  | '\u2029' => some 'P'
  | _ => none

def escape (c : Char) : List Char :=
  match escapeLetter? c with
  | some letter => ['\\', letter]
  | none =>
    if isPrintable c then [c]
    else if c.toNat < 0x100 then '\\' :: 'x' :: Hex.padded Hex.upper 2 c.toNat
    else if c.toNat < 0x10000 then '\\' :: 'u' :: Hex.padded Hex.upper 4 c.toNat
    else '\\' :: 'U' :: Hex.padded Hex.upper 8 c.toNat

def double (p : Page) (text : List Char) : Page :=
  p.word ('"' :: text.flatMap escape ++ ['"'])

/-- What stands behind the bar of a literal text: how far its lines are indented, if the first one
does not tell, and whether it ends in no line break or in several. -/
def hints (text : List Char) : List Char :=
  let indentation := if text.head?.any fun c => isSpace c || isBreak c then ['2'] else []
  let ending :=
    match text.reverse with
    | [] => ['-']
    | c :: rest =>
      if !isBreak c then ['-']
      else if rest.head?.all isBreak then ['+']
      else []
  indentation ++ ending

def literal (p : Page) (indent : Nat) (text : List Char) : Page :=
  let start := (p.word ('|' :: hints text)).endLine '\n'
  (lines put indent { start with spaced := true } true text).1

/-- A text in the style that suits it. Further lines of it are indented by `indent`. -/
def scalar (p : Page) (indent : Nat) (text : String) : Page :=
  match Style.ofText text with
  | .plain => p.word text.toList
  | .single => p.single indent text.toList
  | .double => p.double text.toList
  | .literal => p.literal indent text.toList

end Page

end DocQuery.Yaml
