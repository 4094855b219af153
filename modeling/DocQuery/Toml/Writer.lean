import DocQuery.Text.Hex

/-!
# Writing TOML texts

A text is written in the first of four kinds of quotes that hold it without an escape. Where none
does, it is escaped between double quotes, of which there are three if the text has several lines.
-/

namespace DocQuery.Toml

/-- The greatest number of times that `mark` stands in a row. -/
def longestRun (mark : Char) (text : List Char) : Nat :=
  (text.foldl (fun (longest, current) c =>
    if c = mark then (max longest (current + 1), current + 1) else (longest, 0)) (0, 0)).1

/-- A character that has to be escaped between all kinds of quotes. -/
def isUnprintable (c : Char) : Bool :=
  (c < ' ' ∧ c ≠ '\t' ∧ c ≠ '\n') ∨ c = '\x7f'

inductive Quotes where
  | double
  | single
  | tripleDouble
  | tripleSingle
  deriving DecidableEq

namespace Quotes

def mark : Quotes → Char
  | .double | .tripleDouble => '"'
  | .single | .tripleSingle => '\''

def isTriple : Quotes → Bool
  | .double | .single => false
  | .tripleDouble | .tripleSingle => true

/-- How many quotes may stand in a row in the text without ending it. -/
def allowedRun (quotes : Quotes) : Nat :=
  if quotes.isTriple then 2 else 0

/-- Whether `text` can stand between the quotes as it is. -/
def fit (quotes : Quotes) (text : List Char) : Bool :=
  !text.any isUnprintable && (quotes.isTriple || !text.contains '\n') &&
    (quotes.mark == '\'' || !text.contains '\\') &&
    decide (longestRun quotes.mark text ≤ quotes.allowedRun)

/-- The quotes for `text`, of those that hold it without an escape if there are any. -/
def choose (text : List Char) : Quotes :=
  match [double, single, tripleDouble, tripleSingle].find? (·.fit text) with
  | some quotes => quotes
  | none => if text.contains '\n' then .tripleDouble else .double

end Quotes

/-- The text between double quotes, of which `run` stand right before it. -/
def escape (quotes : Quotes) (run : Nat) : List Char → List Char
  | [] => []
  | '"' :: rest =>
    if run < quotes.allowedRun then '"' :: escape quotes (run + 1) rest
    else '\\' :: '"' :: escape quotes 0 rest
  | c :: rest => escapeChar c ++ escape quotes 0 rest
where
  escapeChar (c : Char) : List Char :=
    match c with
    | '\x08' => ['\\', 'b']
    | '\t' => ['\\', 't']
    | '\n' => if quotes.isTriple then ['\n'] else ['\\', 'n']
    | '\x0c' => ['\\', 'f']
    | '\r' => ['\\', 'r']
    | '\\' => ['\\', '\\']
    | c => if isUnprintable c then '\\' :: 'u' :: Hex.padded Hex.upper 4 c.toNat else [c]

/-- A text with its quotes. A line break right behind three quotes is no part of the text, and
stands there if the text has several lines. -/
def quote (text : String) : String :=
  let cs := text.toList
  let quotes := Quotes.choose cs
  let marks := List.replicate (if quotes.isTriple then 3 else 1) quotes.mark
  let start := if quotes.isTriple && cs.contains '\n' then ['\n'] else []
  let content := if quotes.mark = '"' then escape quotes 0 cs else cs
  String.ofList (marks ++ start ++ content ++ marks)

end DocQuery.Toml
