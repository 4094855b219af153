import DocQuery.Decimal.Layout
import DocQuery.Yaml.Page

/-!
# Writing YAML

Collections are written line by line. The items of a sequence under a key stand right below the
key; all else is indented by two columns.
-/

namespace DocQuery.Yaml

/-- Doubles always show that they are no integers: below `10 ^ 16` by a fraction, from there on and
below `10 ^ -5` by an exponent. -/
def floatLayout : Decimal.Layout where
  tie := .even
  positional e := -5 ≤ e ∧ e < 16
  wholeFraction := true
  plusSign := false
  nan := ".nan"
  infinity := ".inf"
  negativeInfinity := "-.inf"

def numeral : Number → List Char
  | .integer value => (toString value.toInt).toList
  | .float value => (floatLayout.write value).toList

/-- Whether a key fits in front of its colon: on one line, and in 128 bytes. -/
def isShortKey (key : String) : Bool :=
  !key.toList.any isBreak && decide (key.utf8ByteSize ≤ 128)

/-- Goes one level in, where nothing stands for the level around the whole document. -/
def deeper : Option Nat → Nat
  | none => 0
  | some indent => indent + 2

namespace Page

/-- A key and the colon behind it. -/
def key (p : Page) (indent : Nat) (key : String) : Page :=
  let p := p.moveTo indent
  if isShortKey key then (p.scalar (indent + 2) key).attach [':']
  else (((p.bullet '?').scalar (indent + 2) key).moveTo indent).bullet ':'

mutual

/-- Writes a node inside a collection indented by `indent`. `ofKey` says whether it stands behind a
key. -/
def node (p : Page) (indent : Option Nat) (ofKey : Bool) : Tree → Page
  | .null => p.word "null".toList
  | .bool true => p.word "true".toList
  | .bool false => p.word "false".toList
  | .number value => p.word (numeral value)
  | .string text => p.scalar (indent.getD 0 + 2) text
  | .array [] => p.word ['[', ']']
  | .array (item :: rest) =>
    let indent := if ofKey && !p.fresh then indent.getD 0 else deeper indent
    items (node ((p.moveTo indent).bullet '-') (some indent) false item) indent rest
  | .object [] => p.word ['\x7b', '\x7d']
  | .object ((name, child) :: rest) =>
    let indent := deeper indent
    entries (node (p.key indent name) (some indent) true child) indent rest

def items (p : Page) (indent : Nat) : List Tree → Page
  | [] => p
  | item :: rest => items (node ((p.moveTo indent).bullet '-') (some indent) false item) indent rest

def entries (p : Page) (indent : Nat) : List (String × Tree) → Page
  | [] => p
  | (name, child) :: rest =>
    entries (node (p.key indent name) (some indent) true child) indent rest

end

end Page

/-- The text of a document, which ends in a line break. -/
def write (t : Tree) : String :=
  String.ofList ((({} : Page).node none false t).moveTo 0).text.reverse

end DocQuery.Yaml
