import DocQuery.Yaml.Scalar.Folding

/-!
# Plain scalars

Content without quotes goes on until an indicator that cannot be part of it, a comment, a mark
between documents, or a line that is not indented deeply enough.
-/

namespace DocQuery.Yaml.PlainScalar

/-- A scalar that was read: its text, whether a line ended behind it, and what follows. -/
structure Result where
  text : String
  lineEnded : Bool
  rest : Spots

/-- The scalar that ends before `rest`. Its text is given last first. -/
def Result.stop (text : List Char) (gap : Gap) (rest : Spots) : Result :=
  ⟨String.ofList text.reverse, gap.broken, rest⟩

def isFlowIndicator (c : Char) : Bool :=
  c = ',' ∨ c = '[' ∨ c = ']' ∨ c = '{' ∨ c = '}'

/-- Reads on from `text`, which is last first. `indent` is the least column of a line in block
context; `fresh` says that no character of the scalar stands right before. -/
def readFrom (inFlow : Bool) (indent : Nat) (text : List Char) (gap : Gap) (fresh : Bool) :
    Spots → Option Result
  | [] => none
  | s :: rest =>
    let c := s.char
    let next := Spots.current rest
    if isBlank c then
      if gap.broken ∧ s.column < indent ∧ c = '\t' then none
      else readFrom inFlow indent text (gap.addBlank c) true rest
    else if c = '\r' ∧ next = '\n' then
      match rest with
      | [] => none
      | _ :: rest => readFrom inFlow indent text (gap.addBreak c) true rest
    else if isBreak c then readFrom inFlow indent text (gap.addBreak c) true rest
    else if c = endMark then some (.stop text gap (s :: rest))
    else if fresh ∧ (gap.broken ∧ !inFlow ∧ s.column < indent ∨
        Spots.atDocumentMark (s :: rest) ∨ c = '#') then
      some (.stop text gap (s :: rest))
    else if inFlow ∧ c = ':' ∧ (isFlowIndicator next ∨ next = '?') then none
    else if c = ':' ∧ isGap next ∨ inFlow ∧ isFlowIndicator c then some (.stop text gap (s :: rest))
    else readFrom inFlow indent (c :: gap.close text) .none false rest

end DocQuery.Yaml.PlainScalar
