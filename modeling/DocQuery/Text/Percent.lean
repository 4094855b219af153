import DocQuery.Text.Hex

/-!
# Percent escapes

Keys and values stand in paths and queries with every byte escaped that could be read as part of
the grammar, as white space or as a control, and with every byte that is not ASCII. Characters
with a meaning inside a URI (`/`, `?`, `:` and so on) stand for themselves; an escape of one of
those is not undone by `decode`, so that it stays distinct from the bare character.
-/

namespace DocQuery.Percent

/-- A text with a `%` that starts no escape, or with escapes that spell no UTF-8. -/
structure Malformed where
  text : String
  deriving DecidableEq, Repr

def Malformed.message (m : Malformed) : String :=
  "Invalid percent-encoding in '" ++ m.text ++ "'"

/-- Characters that are written as themselves. -/
def isPlain (c : Char) : Bool :=
  '!' ≤ c ∧ c ≤ '~' ∧ !("\"%<>[\\]^`\x7b|\x7d".toList.contains c)

/-- Characters whose escapes stay in the text as they were written. -/
def isReserved (byte : Nat) : Bool :=
  (";/?:@&=+$,#".toList.map Char.toNat).contains byte

def escape (byte : UInt8) : List Char :=
  ['%', Hex.upper (byte.toNat / 16), Hex.upper (byte.toNat % 16)]

def encodeChar (c : Char) : List Char :=
  if isPlain c then [c] else (String.utf8EncodeChar c).flatMap escape

def encode (text : String) : String :=
  String.ofList (text.toList.flatMap encodeChar)

/-- The bytes that a text stands for, when every `%` starts an escape. -/
def bytes? : List Char → Option (List UInt8)
  | [] => some []
  | '%' :: rest =>
    match rest with
    | high :: low :: rest =>
      match Hex.value? high, Hex.value? low with
      | some h, some l =>
        let escaped :=
          if isReserved (16 * h + l) then ['%', high, low].flatMap String.utf8EncodeChar
          else [(16 * h + l).toUInt8]
        (bytes? rest).map (escaped ++ ·)
      | _, _ => none
    | _ => none
  | c :: rest => (bytes? rest).map (String.utf8EncodeChar c ++ ·)

/-- The text with its escapes undone, those of reserved characters apart. -/
def decode (text : String) : Except Malformed String :=
  match (bytes? text.toList).bind fun bytes => String.fromUTF8? (ByteArray.mk bytes.toArray) with
  | some decoded => .ok decoded
  | none => .error ⟨text⟩

end DocQuery.Percent
