import DocQuery.Text.Hex
import DocQuery.Yaml.Scalar.Folding

/-!
# Quoted scalars

Between single quotes only the quote itself is special, and is written twice. Between double quotes
a backslash starts an escape; before a line break it joins the lines.
-/

namespace DocQuery.Yaml.QuotedScalar

/-- The character of an escape of one letter. -/
def shortEscape? : Char → Option Char
  | '0' => some '\x00'
  | 'a' => some '\x07'
  | 'b' => some '\x08'
  | 't' | '\t' => some '\t'
  | 'n' => some '\n'
  | 'v' => some '\x0b'
  | 'f' => some '\x0c'
  | 'r' => some '\r'
  | 'e' => some '\x1b'
  | ' ' => some ' '
  | '"' => some '"'
  | '/' => some '/'
  | '\\' => some '\\'
  | 'N' => some '\u0085'
  | '_' => some '\u00a0'
  | 'L' => some '\u2028'
  | 'P' => some '\u2029'
  | _ => none

/-- How many hexadecimal digits follow the letter of a numeric escape. -/
def escapeWidth? : Char → Option Nat
  | 'x' => some 2
  | 'u' => some 4
  | 'U' => some 8
  | _ => none

/-- The character with a code point given by hexadecimal digits. -/
def character? (digits : List Char) : Option Char :=
  (Hex.number? digits).bind fun n => if n.isValidChar then some (.ofNat n) else none

/-- Reads on from `text`, which is last first, to the closing quote. The first argument counts
spots of an escape that are still to be passed. -/
def readFrom (quote : Char) (skip : Nat) (text : List Char) (gap : Gap) :
    Spots → Option (String × Spots)
  | [] => none
  | s :: rest =>
    let c := s.char
    let next := Spots.current rest
    if 0 < skip then readFrom quote (skip - 1) text gap rest
    else if c = endMark then none
    else if isBlank c then readFrom quote 0 text (gap.addBlank c) rest
    else if isBreak c then
      readFrom quote (if c = '\r' ∧ next = '\n' then 1 else 0) text (gap.addBreak c) rest
    else
      let text := gap.close text
      if Spots.atDocumentMark (s :: rest) then none
      else if c = quote then
        if quote = '\'' ∧ next = '\'' then readFrom quote 1 ('\'' :: text) .none rest
        else some (String.ofList text.reverse, rest)
      else if quote = '"' ∧ c = '\\' then
        if isBreak next then
          let width := if next = '\r' ∧ Spots.charAt rest 1 = '\n' then 2 else 1
          readFrom quote width text .escapedBreak rest
        else
          match shortEscape? next, escapeWidth? next with
          | some escaped, _ => readFrom quote 1 (escaped :: text) .none rest
          | none, some width =>
            match character? (((rest.drop 1).take width).map Spot.char) with
            | some escaped => readFrom quote (width + 1) (escaped :: text) .none rest
            | none => none
          | none, none => none
      else readFrom quote 0 (c :: text) .none rest

end DocQuery.Yaml.QuotedScalar
