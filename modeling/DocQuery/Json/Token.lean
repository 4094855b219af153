import DocQuery.Decimal.Reading
import DocQuery.Json.Value
import DocQuery.Text.Hex

/-!
# Tokens of JSON

`Token.next?` takes the first token off a text that starts with one. What it leaves is shorter
(`length_lt_of_next?`), so reading a text token by token ends.
-/

namespace DocQuery.Json

inductive Token where
  | beginArray
  | endArray
  | beginObject
  | endObject
  | comma
  | colon
  | quoted (content : String)
  /-- Null, a truth value or a number. -/
  | leaf (value : Value)

/-- White space between tokens. -/
def isBlank (c : Char) : Bool :=
  c = ' ' ∨ c = '\n' ∨ c = '\t' ∨ c = '\r'

/-- The character of an escape of one letter. -/
def shortEscape? : Char → Option Char
  | '"' => some '"'
  | '\\' => some '\\'
  | '/' => some '/'
  | 'b' => some '\x08'
  | 'f' => some '\x0c'
  | 'n' => some '\n'
  | 'r' => some '\r'
  | 't' => some '\t'
  | _ => none

def isHighSurrogate (unit : Nat) : Bool :=
  0xd800 ≤ unit ∧ unit < 0xdc00

def isLowSurrogate (unit : Nat) : Bool :=
  0xdc00 ≤ unit ∧ unit < 0xe000

/-- The character that a pair of surrogates stands for. -/
def paired (high low : Nat) : Char :=
  Char.ofNat (0x10000 + (high - 0xd800) * 0x400 + (low - 0xdc00))

/-- The content of a quoted text up to the closing quote, and what follows the quote; `read` holds
the characters before, last first. Surrogates must come in pairs. -/
def quoted? (read : List Char) : List Char → Option (String × List Char)
  | [] => none
  | '"' :: rest => some (String.ofList read.reverse, rest)
  | '\\' :: 'u' :: a :: b :: c :: d :: rest =>
    match Hex.number? [a, b, c, d] with
    | none => none
    | some unit =>
      if isHighSurrogate unit then
        match rest with
        | '\\' :: 'u' :: e :: f :: g :: h :: rest =>
          match Hex.number? [e, f, g, h] with
          | none => none
          | some low =>
            if isLowSurrogate low then quoted? (paired unit low :: read) rest else none
        | _ => none
      else if isLowSurrogate unit then none
      else quoted? (Char.ofNat unit :: read) rest
  | '\\' :: e :: rest =>
    match shortEscape? e with
    | some c => quoted? (c :: read) rest
    | none => none
  | c :: rest => if c < ' ' then none else quoted? (c :: read) rest

/-- Digits up to the first character that is none, and the rest. -/
def digits (text : List Char) : List Char × List Char :=
  (text.takeWhile Char.isDigit, text.dropWhile Char.isDigit)

/-- A fraction or exponent that has begun must have a digit. -/
def someDigits? (text : List Char) : Option (List Char × List Char) :=
  match digits text with
  | ([], _) => none
  | split => some split

/-- The digits after a point, none if there is no point. -/
def fraction? (text : List Char) : Option (List Char × List Char) :=
  match text with
  | '.' :: rest => someDigits? rest
  | _ => some ([], text)

/-- The exponent after an `e`, absent if there is none. -/
def exponent? (text : List Char) : Option (Option Int × List Char) :=
  match text with
  | e :: rest =>
    if e = 'e' ∨ e = 'E' then
      match rest with
      | '+' :: rest => (someDigits? rest).map fun (ds, rest) => (some (natural ds), rest)
      | '-' :: rest => (someDigits? rest).map fun (ds, rest) => (some (-natural ds), rest)
      | rest => (someDigits? rest).map fun (ds, rest) => (some (natural ds), rest)
    else some (none, text)
  | [] => some (none, text)
where
  natural (ds : List Char) : Int :=
    Nat.ofDigitChars 10 ds 0

/-- `n` continued by digits of the list for as long as it fits 64 bits, and how many were taken. -/
def grow (n : Nat) : List Char → Nat × Nat
  | [] => (n, 0)
  | c :: digits =>
    let longer := 10 * n + (c.toNat - '0'.toNat)
    if longer < UInt64.size then
      let (m, taken) := grow longer digits
      (m, taken + 1)
    else (n, 0)

/-- The digits before and after the point in 64 bits, and the power of ten that they count. Digits
that do not fit are left out, first at the end of `whole` and then at the end of `fraction`. -/
def significand (whole fraction : List Char) : Nat × Int :=
  let (n, takenWhole) := grow 0 whole
  let (n, takenFraction) := grow n fraction
  (n, (whole.length - takenWhole : Nat) - (takenFraction : Int))

/-- The value of a numeral. Without fraction and exponent it is a whole number if that fits 64 bits,
with a sign where it has one; minus zero is a double. -/
def numberValue? (negative : Bool) (whole fraction : List Char) (exponent : Option Int) :
    Option Value :=
  let n := Nat.ofDigitChars 10 whole 0
  if fraction.isEmpty ∧ exponent.isNone ∧ !negative ∧ n < UInt64.size then
    some (.integer n)
  else if fraction.isEmpty ∧ exponent.isNone ∧ negative ∧ 0 < n ∧ Int64.minValue.toInt ≤ -n then
    some (.integer (-n))
  else
    let (n, shift) := significand whole fraction
    (Decimal.scaled? n (shift + exponent.getD 0)).map fun x =>
      .float (if negative then -x else x)

/-- The number at the start of `text`, whose sign has been read. -/
def unsigned? (negative : Bool) (text : List Char) : Option (Value × List Char) :=
  match digits text with
  | ([], _) => none
  | ('0' :: _ :: _, _) => none
  | (whole, rest) =>
    match fraction? rest with
    | none => none
    | some (fraction, rest) =>
      match exponent? rest with
      | none => none
      | some (exponent, rest) =>
        (numberValue? negative whole fraction exponent).map (·, rest)

def number? : List Char → Option (Value × List Char)
  | '-' :: rest => unsigned? true rest
  | text => unsigned? false text

namespace Token

/-- The first token of a text that does not start with white space, and what follows it. -/
def next? : List Char → Option (Token × List Char)
  | '[' :: rest => some (.beginArray, rest)
  | ']' :: rest => some (.endArray, rest)
  | '{' :: rest => some (.beginObject, rest)
  | '}' :: rest => some (.endObject, rest)
  | ',' :: rest => some (.comma, rest)
  | ':' :: rest => some (.colon, rest)
  | '"' :: rest => (quoted? [] rest).map fun (content, rest) => (.quoted content, rest)
  | 'n' :: 'u' :: 'l' :: 'l' :: rest => some (.leaf .null, rest)
  | 't' :: 'r' :: 'u' :: 'e' :: rest => some (.leaf (.bool true), rest)
  | 'f' :: 'a' :: 'l' :: 's' :: 'e' :: rest => some (.leaf (.bool false), rest)
  | text => (number? text).map fun (value, rest) => (.leaf value, rest)

end Token

theorem length_lt_of_quoted? {read text : List Char} {content : String} {rest : List Char}
    (h : quoted? read text = some (content, rest)) : rest.length < text.length := by
  fun_induction quoted? read text <;> simp_all <;> omega

theorem length_digits (text : List Char) :
    (digits text).1.length + (digits text).2.length = text.length := by
  rw [← List.length_append]
  simp [digits, List.takeWhile_append_dropWhile]

theorem length_lt_of_someDigits? {text ds rest : List Char}
    (h : someDigits? text = some (ds, rest)) : rest.length < text.length := by
  have hl := length_digits text
  unfold someDigits? at h
  split at h
  next => cases h
  next split hd =>
    cases h
    have : 0 < (digits text).1.length := by
      apply List.length_pos_iff.2
      intro he
      exact hd (digits text).2 (Prod.ext he rfl)
    simp only [digits] at *
    omega

theorem length_le_of_fraction? {text ds rest : List Char}
    (h : fraction? text = some (ds, rest)) : rest.length ≤ text.length := by
  unfold fraction? at h
  split at h
  next => have := length_lt_of_someDigits? h; simp; omega
  next => cases h; exact Nat.le_refl _

theorem length_le_of_exponent? {text rest : List Char} {e : Option Int}
    (h : exponent? text = some (e, rest)) : rest.length ≤ text.length := by
  unfold exponent? at h
  split at h
  next =>
    split at h
    next =>
      split at h <;>
        (obtain ⟨⟨ds, r⟩, hr, he⟩ := Option.map_eq_some_iff.1 h
         cases he
         have := length_lt_of_someDigits? hr
         simp only [List.length_cons]
         omega)
    next => cases h; exact Nat.le_refl _
  next => cases h; exact Nat.le_refl _

theorem length_lt_of_unsigned? {negative : Bool} {text rest : List Char} {value : Value}
    (h : unsigned? negative text = some (value, rest)) : rest.length < text.length := by
  have hl := length_digits text
  unfold unsigned? at h
  split at h
  next => cases h
  next => cases h
  next whole after hnil _ hd =>
    split at h
    next => cases h
    next hf =>
      split at h
      next => cases h
      next he =>
        obtain ⟨x, -, hx⟩ := Option.map_eq_some_iff.1 h
        cases hx
        have hw : 0 < whole.length := by
          apply List.length_pos_iff.2
          rintro rfl
          exact hnil rfl
        have := length_le_of_fraction? hf
        have := length_le_of_exponent? he
        rw [hd] at hl
        simp only at hl
        omega

theorem length_lt_of_number? {text rest : List Char} {value : Value}
    (h : number? text = some (value, rest)) : rest.length < text.length := by
  unfold number? at h
  split at h
  next => have := length_lt_of_unsigned? h; simp only [List.length_cons]; omega
  next => exact length_lt_of_unsigned? h

theorem Token.length_lt_of_next? {text rest : List Char} {token : Token}
    (h : next? text = some (token, rest)) : rest.length < text.length := by
  unfold next? at h
  split at h
  case h_7 =>
    obtain ⟨⟨content, r⟩, hr, he⟩ := Option.map_eq_some_iff.1 h
    cases he
    have := length_lt_of_quoted? hr
    simp only [List.length_cons]
    omega
  case h_11 =>
    obtain ⟨⟨value, r⟩, hr, he⟩ := Option.map_eq_some_iff.1 h
    cases he
    exact length_lt_of_number? hr
  all_goals
    cases h
    simp only [List.length_cons]
    omega

end DocQuery.Json
