import DocQuery.Decimal.Layout
import DocQuery.Text.Hex
import DocQuery.Tree.Basic

/-!
# Trees as JSON

`compact` writes a tree on one line without a space; `pretty` gives every item and entry a line of
its own. Both keep the order of entries. Doubles without a JSON form become `null`.
-/

namespace DocQuery.Json

/-- Doubles always show that they are no integers: below `10 ^ 16` by a fraction, from there on and
below `10 ^ -5` by an exponent. -/
def floatLayout : Decimal.Layout where
  tie := .even
  positional e := -5 ≤ e ∧ e < 16
  wholeFraction := true
  plusSign := true
  nan := "null"
  infinity := "null"
  negativeInfinity := "null"

/-- Quotes, backslashes and control characters are escaped, all else stands for itself. -/
def escapeChar (c : Char) : List Char :=
  match c with
  | '"' => ['\\', '"']
  | '\\' => ['\\', '\\']
  | '\n' => ['\\', 'n']
  | '\r' => ['\\', 'r']
  | '\t' => ['\\', 't']
  | '\x08' => ['\\', 'b']
  | '\x0c' => ['\\', 'f']
  | c => if c < ' ' then '\\' :: 'u' :: Hex.padded Hex.lower 4 c.toNat else [c]

def quote (text : String) : List Char :=
  '"' :: text.toList.flatMap escapeChar ++ ['"']

def numeral : Number → List Char
  | .integer value => (toString value.toInt).toList
  | .float value => (floatLayout.write value).toList

mutual

def write : Tree → List Char
  | .null => ['n', 'u', 'l', 'l']
  | .bool true => ['t', 'r', 'u', 'e']
  | .bool false => ['f', 'a', 'l', 's', 'e']
  | .number value => numeral value
  | .string text => quote text
  | .array [] => ['[', ']']
  | .array (item :: items) => '[' :: write item ++ writeItems items
  | .object [] => ['{', '}']
  | .object ((key, child) :: entries) =>
    '{' :: quote key ++ ':' :: write child ++ writeEntries entries

/-- The items after the first, and the closing bracket. -/
def writeItems : List Tree → List Char
  | [] => [']']
  | item :: items => ',' :: write item ++ writeItems items

/-- The entries after the first, and the closing brace. -/
def writeEntries : List (String × Tree) → List Char
  | [] => ['}']
  | (key, child) :: entries => ',' :: quote key ++ ':' :: write child ++ writeEntries entries

end

def compact (t : Tree) : String :=
  String.ofList (write t)

/-- A line break and the indentation of `depth` levels. -/
def lineAt (depth : Nat) : List Char :=
  '\n' :: List.replicate (2 * depth) ' '

mutual

def writeLines (depth : Nat) : Tree → List Char
  | .array [] => ['[', ']']
  | .array (item :: items) =>
    '[' :: lineAt (depth + 1) ++ writeLines (depth + 1) item ++ writeItemLines depth items
  | .object [] => ['{', '}']
  | .object ((key, child) :: entries) =>
    '{' :: lineAt (depth + 1) ++ quote key ++ ':' :: ' ' :: writeLines (depth + 1) child ++
      writeEntryLines depth entries
  | leaf => write leaf

/-- The items after the first and the closing bracket, which stands `depth` levels in. -/
def writeItemLines (depth : Nat) : List Tree → List Char
  | [] => lineAt depth ++ [']']
  | item :: items =>
    ',' :: lineAt (depth + 1) ++ writeLines (depth + 1) item ++ writeItemLines depth items

/-- The entries after the first and the closing brace, which stands `depth` levels in. -/
def writeEntryLines (depth : Nat) : List (String × Tree) → List Char
  | [] => lineAt depth ++ ['}']
  | (key, child) :: entries =>
    ',' :: lineAt (depth + 1) ++ quote key ++ ':' :: ' ' :: writeLines (depth + 1) child ++
      writeEntryLines depth entries

end

def pretty (t : Tree) : String :=
  String.ofList (writeLines 0 t)

end DocQuery.Json
