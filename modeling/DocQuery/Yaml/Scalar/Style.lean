import DocQuery.Yaml.Scalar.Resolution
import DocQuery.Yaml.Spot

/-!
# Styles of scalars

In which of four ways a text is written. Texts of several lines are written line by line, others
without quotes; what would be read as something else gets quotes, single ones if there is nothing to
escape.
-/

namespace DocQuery.Yaml

inductive Style where
  | plain
  | single
  | double
  | literal
  deriving DecidableEq, Repr

/-- Characters that are written as they are. -/
def isPrintable (c : Char) : Bool :=
  c = '\n' || (' ' ≤ c && c ≤ '~') ||
    (0xa0 ≤ c.toNat && c.toNat ≤ 0xfffd && c ≠ '\ufeff') || 0x10000 ≤ c.toNat

def isSpace (c : Char) : Bool :=
  c = ' '

/-- Whether `first` holds of a character and `second` of the next one. -/
def anyPair (first second : Char → Bool) (text : List Char) : Bool :=
  (text.zip text.tail).any fun (a, b) => first a && second b

/-- Characters that start no plain scalar. -/
def isIndicator (c : Char) : Bool :=
  "#,[]\x7b\x7d&*!|>'\"%@\x60".toList.contains c

/-- Whether the first characters are those of something other than a plain scalar. -/
def startsOtherwise (text : List Char) : Bool :=
  ['-', '-', '-'].isPrefixOf text || ['.', '.', '.'].isPrefixOf text ||
    match text with
    | [] => true
    | c :: rest => isIndicator c || isSpace c || ((c == '?' || c == '-') && rest.head?.all isGap)

/-- Whether a text stays what it is without quotes, apart from being a text. -/
def allowsPlain (text : List Char) : Bool :=
  text.all (fun c => isPrintable c && !isBreak c) && !startsOtherwise text &&
    !text.getLast?.any isSpace && !anyPair (· == ':') isGap (text ++ [endMark]) &&
    !anyPair isGap (· == '#') text

/-- Whether line breaks have spaces on neither side, where they would be lost between quotes. -/
def allowsSingle (text : List Char) : Bool :=
  text.all isPrintable && !anyPair isSpace isBreak text && !anyPair isBreak isSpace text

/-- Whether no line ends in a space. -/
def allowsLiteral (text : List Char) : Bool :=
  text.all isPrintable && !anyPair isSpace isBreak text && !text.getLast?.any isSpace

/-- Whether a plain scalar with this text is clearly a text. -/
def isClearText (text : String) : Bool :=
  match Value.ofPlain? text with
  | some (.string _) => !isPaddedNumeral text.toList
  | _ => false

namespace Style

def ofText (text : String) : Style :=
  let cs := text.toList
  if cs.contains '\n' then if allowsLiteral cs then .literal else .double
  else if isClearText text && allowsPlain cs then .plain
  else if allowsSingle cs then .single
  else .double

end Style

end DocQuery.Yaml
