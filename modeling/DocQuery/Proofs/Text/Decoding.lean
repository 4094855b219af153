import DocQuery.Proofs.Text.Percent

/-!
# What can be read

A text is read from the left as pieces: characters that stand for themselves, and escapes
(`Reads`). An escape is undone unless it is that of a reserved character. Whether the bytes of all
pieces are those of a text can be told run by run, for a run of escapes that are undone stands
between characters, and the first byte of a character is never a later byte of another
(`isUtf8_append_iff`).

* `exists_reads_iff`: a text is made of pieces if each sign that is reached starts an escape;
* `isUtf8_iff_runs`: the bytes of pieces are those of a text if those of each run are;
* `decode_eq_ok_iff`: what is read, and when;
* `decode_by_runs`: all this of `decode`, and how it goes over a concatenation.
-/

namespace DocQuery.Percent

/-! ## Bytes of texts -/

section

variable {a b : List UInt8}

/-- The bytes are those of a text. -/
def IsUtf8 (bytes : List UInt8) : Prop :=
  bytes.toByteArray.IsValidUTF8

theorem isUtf8_iff : IsUtf8 a ↔ ∃ chars : List Char, chars.flatMap String.utf8EncodeChar = a := by
  constructor
  · rintro ⟨chars, spelled⟩
    exact ⟨chars, (List.toByteArray_inj.1 spelled).symm⟩
  · rintro ⟨chars, rfl⟩
    exact ⟨chars, rfl⟩

theorem IsUtf8.append (ha : IsUtf8 a) (hb : IsUtf8 b) : IsUtf8 (a ++ b) := by
  rw [IsUtf8, List.toByteArray_append]
  exact ByteArray.IsValidUTF8.append ha hb

/-- Whole characters in front make no difference. -/
theorem isUtf8_chars_append (chars : List Char) :
    IsUtf8 (chars.flatMap String.utf8EncodeChar ++ b) ↔ IsUtf8 b := by
  induction chars with
  | nil => rfl
  | cons c chars ih =>
    have one := ByteArray.isValidUTF8_utf8Encode_singleton_append_iff (c := c)
      (b := (chars.flatMap String.utf8EncodeChar ++ b).toByteArray)
    rw [List.utf8Encode, List.flatMap_singleton, ← List.toByteArray_append] at one
    rw [List.flatMap_cons, List.append_assoc]
    exact one.trans ih

theorem head?_utf8EncodeChar_append (c : Char) (rest : List UInt8) :
    ∀ byte ∈ (String.utf8EncodeChar c ++ rest).head?, byte.IsUTF8FirstByte := by
  intro byte first
  cases bytes : String.utf8EncodeChar c with
  | nil => exact absurd bytes String.utf8EncodeChar_ne_nil
  | cons lead later =>
    rw [bytes] at first
    obtain rfl := Option.some.inj first
    have start := UInt8.isUTF8FirstByte_getElem_zero_utf8EncodeChar (c := c)
    simpa only [bytes, List.getElem_cons_zero] using start

/-- No byte of a character but the first one may start a character. -/
theorem not_isUTF8FirstByte_of_eq {c : Char} {lead byte : UInt8} {later : List UInt8}
    (bytes : String.utf8EncodeChar c = lead :: a ++ byte :: later) : ¬ byte.IsUTF8FirstByte := by
  intro start
  have inside : (lead :: a).length < (String.utf8EncodeChar c).length := by
    rw [bytes, List.length_append, List.length_cons (a := byte)]
    omega
  have there : (String.utf8EncodeChar c)[(lead :: a).length] = byte := by
    simp [bytes]
  rw [← there, UInt8.isUTF8FirstByte_getElem_utf8EncodeChar] at start
  cases start

theorem isUtf8_of_spelled {chars : List Char}
    (spelled : chars.flatMap String.utf8EncodeChar = a ++ b)
    (start : ∀ byte ∈ b.head?, byte.IsUTF8FirstByte) : IsUtf8 a ∧ IsUtf8 b := by
  induction chars generalizing a with
  | nil =>
    obtain ⟨rfl, rfl⟩ := List.append_eq_nil_iff.1 spelled.symm
    exact ⟨isUtf8_iff.2 ⟨[], rfl⟩, isUtf8_iff.2 ⟨[], rfl⟩⟩
  | cons c chars ih =>
    cases a with
    | nil => exact ⟨isUtf8_iff.2 ⟨[], rfl⟩, isUtf8_iff.2 ⟨c :: chars, spelled⟩⟩
    | cons lead a =>
      rw [List.flatMap_cons] at spelled
      obtain ⟨rest, ha, spelled⟩ | ⟨later, hc, rfl⟩ := List.append_eq_append_iff.1 spelled
      · obtain ⟨first, second⟩ := ih spelled
        have whole := (isUtf8_chars_append [c]).2 first
        rw [List.flatMap_singleton, ← ha] at whole
        exact ⟨whole, second⟩
      · -- The cut stands inside the character or right after it.
        cases later with
        | nil =>
          rw [List.append_nil] at hc
          exact ⟨isUtf8_iff.2 ⟨[c], by rw [List.flatMap_singleton, hc]⟩, isUtf8_iff.2 ⟨chars, rfl⟩⟩
        | cons byte later => exact absurd (start byte rfl) (not_isUTF8FirstByte_of_eq hc)

/-- Bytes can be cut where a character may start. -/
theorem isUtf8_append_iff (start : ∀ byte ∈ b.head?, byte.IsUTF8FirstByte) :
    IsUtf8 (a ++ b) ↔ IsUtf8 a ∧ IsUtf8 b := by
  constructor
  · intro whole
    obtain ⟨chars, spelled⟩ := isUtf8_iff.1 whole
    exact isUtf8_of_spelled spelled start
  · rintro ⟨ha, hb⟩
    exact ha.append hb

end

/-! ## Pieces -/

/-- What is read from a text at once. -/
inductive Piece where
  /-- A character that stands for itself. -/
  | plain (c : Char)
  /-- An escape with the digits that are written. -/
  | escape (high low : Char)

namespace Piece

/-- The byte that two digits spell. -/
def code (high low : Char) : Nat :=
  16 * (Hex.value? high).getD 0 + (Hex.value? low).getD 0

/-- Whether the piece is an escape that is undone. -/
def isDecoded : Piece → Bool
  | plain _ => false
  | escape high low => !isReserved (code high low)

def written : Piece → List Char
  | plain c => [c]
  | escape high low => ['%', high, low]

/-- An escape that is undone stands for its byte, and every other piece for itself. -/
def bytes (piece : Piece) : List UInt8 :=
  match piece with
  | plain c => String.utf8EncodeChar c
  | escape high low =>
    if isReserved (code high low) then ['%', high, low].flatMap String.utf8EncodeChar
    else [(code high low).toUInt8]

theorem bytes_of_not_isDecoded {piece : Piece} (kept : piece.isDecoded = false) :
    piece.bytes = piece.written.flatMap String.utf8EncodeChar := by
  cases piece with
  | plain c => rw [bytes, written, List.flatMap_singleton]
  | escape high low =>
    have reserved : isReserved (code high low) = true := by simpa [isDecoded] using kept
    rw [bytes, if_pos reserved, written]

end Piece

/-- The text is read as these pieces. -/
inductive Reads : List Char → List Piece → Prop
  | nil : Reads [] []
  | plain {c : Char} {text : List Char} {pieces : List Piece} (other : c ≠ '%')
      (rest : Reads text pieces) : Reads (c :: text) (.plain c :: pieces)
  | escape {high low : Char} {text : List Char} {pieces : List Piece} (first : Hex.IsDigit high)
      (second : Hex.IsDigit low) (rest : Reads text pieces) :
      Reads ('%' :: high :: low :: text) (.escape high low :: pieces)

section

variable {text text' before after : List Char} {pieces pieces' : List Piece} {bytes : List UInt8}

theorem Reads.append (h : Reads text pieces) (h' : Reads text' pieces') :
    Reads (text ++ text') (pieces ++ pieces') := by
  induction h with
  | nil => exact h'
  | plain other _ ih => exact .plain other ih
  | escape first second _ ih => exact .escape first second ih

theorem Reads.of_plain {c : Char} (h : Reads (c :: text) pieces) (other : c ≠ '%') :
    ∃ rest, pieces = .plain c :: rest ∧ Reads text rest := by
  cases h with
  | plain _ rest => exact ⟨_, rfl, rest⟩
  | escape => exact absurd rfl other

theorem Reads.of_sign (h : Reads ('%' :: text) pieces) :
    ∃ high low after rest, text = high :: low :: after ∧ Hex.IsDigit high ∧ Hex.IsDigit low ∧
      pieces = .escape high low :: rest ∧ Reads after rest := by
  cases h with
  | plain other => exact absurd rfl other
  | escape first second rest => exact ⟨_, _, _, _, rfl, first, second, rfl, rest⟩

/-- The text tells the pieces. -/
theorem Reads.unique (h : Reads text pieces) (h' : Reads text pieces') : pieces = pieces' := by
  induction h generalizing pieces' with
  | nil =>
    cases h'
    rfl
  | plain other _ ih =>
    obtain ⟨rest, rfl, reads⟩ := h'.of_plain other
    rw [ih reads]
  | escape _ _ _ ih =>
    obtain ⟨high, low, after, rest, same, -, -, rfl, reads⟩ := h'.of_sign
    cases same
    rw [ih reads]

theorem Reads.bytes?_eq (h : Reads text pieces) :
    bytes? text = some (pieces.flatMap Piece.bytes) := by
  induction h with
  | nil => rfl
  | plain other _ ih =>
    rw [bytes?, ih]
    · rfl
    · exact other
  | escape first second _ ih =>
    obtain ⟨n, hn⟩ := Hex.isDigit_iff.1 first
    obtain ⟨m, hm⟩ := Hex.isDigit_iff.1 second
    simp only [bytes?, hn, hm, ih, Option.map_some, List.flatMap_cons, Piece.bytes, Piece.code,
      Option.getD_some]

theorem exists_reads_of_bytes? (h : bytes? text = some bytes) : ∃ pieces, Reads text pieces := by
  fun_induction bytes? text generalizing bytes with
  | case1 => exact ⟨[], .nil⟩
  | case2 high low rest n m hm hn =>
    rename_i ih
    obtain ⟨_, hrest, -⟩ := Option.map_eq_some_iff.1 h
    obtain ⟨pieces, reads⟩ := ih hrest
    exact ⟨_, .escape (Hex.isDigit_iff.2 ⟨n, hn⟩) (Hex.isDigit_iff.2 ⟨m, hm⟩) reads⟩
  | case3 | case4 => cases h
  | case5 c rest other ih =>
    obtain ⟨_, hrest, -⟩ := Option.map_eq_some_iff.1 h
    obtain ⟨pieces, reads⟩ := ih hrest
    exact ⟨_, .plain other reads⟩

/-- Each sign that is reached when reading from the left starts an escape. -/
def SignsStartEscapes (text : List Char) : Prop :=
  ∀ before after, text = before ++ '%' :: after → (∃ pieces, Reads before pieces) →
    ∃ high low rest, after = high :: low :: rest ∧ Hex.IsDigit high ∧ Hex.IsDigit low

theorem SignsStartEscapes.append_left (h : Reads before pieces)
    (signs : SignsStartEscapes (before ++ text)) : SignsStartEscapes text := by
  rintro inner after rfl ⟨pieces', h'⟩
  exact signs (before ++ inner) after (List.append_assoc _ _ _).symm ⟨_, h.append h'⟩

theorem Reads.digits_of_sign (whole : Reads text pieces) (h : Reads before pieces')
    (sign : text = before ++ '%' :: after) :
    ∃ high low rest, after = high :: low :: rest ∧ Hex.IsDigit high ∧ Hex.IsDigit low := by
  induction h generalizing text pieces with
  | nil =>
    subst sign
    obtain ⟨high, low, rest, _, same, first, second, -⟩ := whole.of_sign
    exact ⟨high, low, rest, same, first, second⟩
  | plain other _ ih =>
    subst sign
    obtain ⟨_, -, reads⟩ := whole.of_plain other
    exact ih reads rfl
  | escape _ _ _ ih =>
    subst sign
    obtain ⟨_, _, _, _, same, -, -, -, reads⟩ := whole.of_sign
    cases same
    exact ih reads rfl

theorem exists_reads_iff : (∃ pieces, Reads text pieces) ↔ SignsStartEscapes text := by
  constructor
  · rintro ⟨pieces, whole⟩ before after sign ⟨pieces', h⟩
    exact whole.digits_of_sign h sign
  · intro signs
    induction text using bytes?.induct with
    | case1 => exact ⟨[], .nil⟩
    | case2 high low rest n m hm hn ih =>
      have one := Reads.escape (Hex.isDigit_iff.2 ⟨n, hn⟩) (Hex.isDigit_iff.2 ⟨m, hm⟩) .nil
      obtain ⟨pieces, reads⟩ := ih (SignsStartEscapes.append_left one signs)
      exact ⟨_, one.append reads⟩
    | case3 high low rest bad =>
      obtain ⟨_, _, _, same, first, second⟩ := signs [] _ rfl ⟨[], .nil⟩
      cases same
      obtain ⟨n, hn⟩ := Hex.isDigit_iff.1 first
      obtain ⟨m, hm⟩ := Hex.isDigit_iff.1 second
      exact (bad n m hn hm).elim
    | case4 rest short =>
      obtain ⟨high, low, more, same, -⟩ := signs [] _ rfl ⟨[], .nil⟩
      exact (short high low more same).elim
    | case5 c rest other ih =>
      have one := Reads.plain (c := c) other .nil
      obtain ⟨pieces, reads⟩ := ih (SignsStartEscapes.append_left one signs)
      exact ⟨_, one.append reads⟩

end

/-! ## Runs -/

section

variable {before after pieces run : List Piece} {b : List UInt8}

/-- Escapes next to each other that are undone, with no such escape before or after them. -/
def MaximalRun (run pieces : List Piece) : Prop :=
  ∃ before after, pieces = before ++ run ++ after ∧ (∀ piece ∈ run, piece.isDecoded = true) ∧
    (∀ piece ∈ before.getLast?, piece.isDecoded = false) ∧
    ∀ piece ∈ after.head?, piece.isDecoded = false

/-- A piece that is kept begins with a character. -/
theorem head?_bytes_append {piece : Piece} (kept : piece.isDecoded = false) (b : List UInt8) :
    ∀ byte ∈ (piece.bytes ++ b).head?, byte.IsUTF8FirstByte := by
  rw [Piece.bytes_of_not_isDecoded kept]
  cases piece with
  | plain c =>
    rw [Piece.written, List.flatMap_singleton]
    exact head?_utf8EncodeChar_append c _
  | escape high low =>
    rw [Piece.written, List.flatMap_cons, List.append_assoc]
    exact head?_utf8EncodeChar_append '%' _

theorem isUtf8_of_bytes_append (kept : ∀ piece ∈ before.getLast?, piece.isDecoded = false)
    (whole : IsUtf8 (before.flatMap Piece.bytes ++ b)) : IsUtf8 b := by
  obtain rfl | ⟨front, last, rfl⟩ := List.eq_nil_or_concat before
  · exact whole
  · have closed : last.isDecoded = false := kept last (by simp)
    rw [List.concat_eq_append, List.flatMap_append, List.flatMap_singleton,
      List.append_assoc] at whole
    have rest := ((isUtf8_append_iff (head?_bytes_append closed b)).1 whole).2
    rw [Piece.bytes_of_not_isDecoded closed] at rest
    exact (isUtf8_chars_append _).1 rest

theorem isUtf8_bytes_append_iff (kept : ∀ piece ∈ after.head?, piece.isDecoded = false) :
    IsUtf8 (b ++ after.flatMap Piece.bytes) ↔ IsUtf8 b ∧ IsUtf8 (after.flatMap Piece.bytes) := by
  apply isUtf8_append_iff
  cases after with
  | nil => simp
  | cons piece after =>
    rw [List.flatMap_cons]
    exact head?_bytes_append (kept piece rfl) _

/-- A run further on is maximal in the whole as well. -/
theorem MaximalRun.later {kept : Piece} (h : MaximalRun run pieces)
    (closed : kept.isDecoded = false) (front : List Piece) :
    MaximalRun run (front ++ kept :: pieces) := by
  obtain ⟨before, after, rfl, decoded, left, right⟩ := h
  refine ⟨front ++ kept :: before, after, by simp, decoded, ?_, right⟩
  intro piece last
  cases before with
  | nil =>
    obtain rfl : kept = piece := by simpa using last
    exact closed
  | cons first before => exact left piece (by simpa [List.getLast?_append] using last)

/-- The first run may be empty. What comes after it is kept. -/
theorem exists_first_run (pieces : List Piece) : ∃ run rest, pieces = run ++ rest ∧
    (∀ piece ∈ run, piece.isDecoded = true) ∧ ∀ piece ∈ rest.head?, piece.isDecoded = false := by
  induction pieces with
  | nil => exact ⟨[], [], rfl, by simp, by simp⟩
  | cons piece pieces ih =>
    cases decoded : piece.isDecoded with
    | true =>
      obtain ⟨run, rest, rfl, all, right⟩ := ih
      exact ⟨piece :: run, rest, rfl, List.forall_mem_cons.2 ⟨decoded, all⟩, right⟩
    | false => exact ⟨[], piece :: pieces, rfl, by simp, by simpa using decoded⟩

/-- The bytes of the pieces are those of a text just if the bytes of each maximal run are. -/
theorem isUtf8_iff_runs : IsUtf8 (pieces.flatMap Piece.bytes) ↔
    ∀ run, MaximalRun run pieces → IsUtf8 (run.flatMap Piece.bytes) := by
  constructor
  · rintro whole run ⟨before, after, rfl, -, left, right⟩
    rw [List.append_assoc, List.flatMap_append, List.flatMap_append] at whole
    have rest := isUtf8_of_bytes_append left whole
    exact ((isUtf8_bytes_append_iff right).1 rest).1
  · intro runs
    induction length : pieces.length using Nat.strongRecOn generalizing pieces with
    | ind n ih =>
      obtain ⟨run, rest, rfl, decoded, right⟩ := exists_first_run pieces
      have first : MaximalRun run (run ++ rest) := ⟨[], rest, rfl, decoded, by simp, right⟩
      rw [List.flatMap_append]
      cases rest with
      | nil => simpa using runs run first
      | cons kept rest =>
        have closed : kept.isDecoded = false := right kept rfl
        have shorter : rest.length < n := by
          rw [← length, List.length_append, List.length_cons]
          omega
        have below : IsUtf8 (rest.flatMap Piece.bytes) :=
          ih _ shorter (fun run h => runs run (h.later closed _)) rfl
        have whole := (isUtf8_chars_append kept.written).2 below
        rw [← Piece.bytes_of_not_isDecoded closed, ← List.flatMap_cons] at whole
        exact (runs run first).append whole

end

/-! ## Two passes -/

/-- The text with the sign of each escape that is kept written as an escape itself. -/
def protect : List Char → Option (List Char)
  | [] => some []
  | '%' :: rest =>
    match rest with
    | high :: low :: rest =>
      match Hex.value? high, Hex.value? low with
      | some h, some l =>
        let sign := if isReserved (16 * h + l) then ['%', '2', '5'] else ['%']
        (protect rest).map fun rest => sign ++ high :: low :: rest
      | _, _ => none
    | _ => none
  | c :: rest => (protect rest).map (c :: ·)

/-- The bytes of a text with every escape undone. A sign that starts none stays as it is. -/
def undo : List Char → List UInt8
  | '%' :: high :: low :: rest =>
    match Hex.value? high, Hex.value? low with
    | some h, some l => (16 * h + l).toUInt8 :: undo rest
    | _, _ => String.utf8EncodeChar '%' ++ undo (high :: low :: rest)
  | c :: rest => String.utf8EncodeChar c ++ undo rest
  | [] => []

theorem undo_cons {c : Char} (other : c ≠ '%') (rest : List Char) :
    undo (c :: rest) = String.utf8EncodeChar c ++ undo rest := by
  rw [undo]
  rintro _ _ _ rfl
  exact absurd rfl other

theorem ne_sign_of_value? {c : Char} {n : Nat} (digit : Hex.value? c = some n) : c ≠ '%' := by
  rintro rfl
  cases digit

/-- An escape of the sign gives a sign that is not read again. -/
theorem bytes?_eq_undo (text : List Char) : bytes? text = (protect text).map undo := by
  induction text using bytes?.induct with
  | case1 => rfl
  | case2 high low rest n m hm hn ih =>
    simp only [bytes?, protect, hn, hm, ih, Option.map_map]
    congr 1
    funext rest
    by_cases reserved : isReserved (16 * n + m) = true
    · -- Only the sign was an escape. The digits after it are read as they are.
      have sign : undo ('%' :: '2' :: '5' :: high :: low :: rest) =
          String.utf8EncodeChar '%' ++ undo (high :: low :: rest) := rfl
      simp [reserved, sign, undo_cons (ne_sign_of_value? hn), undo_cons (ne_sign_of_value? hm)]
    · simp [reserved, undo, hn, hm]
  | case3 high low rest bad =>
    simp only [bytes?, protect]
    rfl
  | case4 rest short =>
    simp only [bytes?, protect]
    rfl
  | case5 c rest other ih =>
    rw [bytes?, protect, ih, Option.map_map, Option.map_map]
    · congr 1
      funext rest
      exact (undo_cons other rest).symm
    · exact other
    · exact other

/-! ## Decoding -/

section

variable {text : String} {decoded : String} {bytes : List UInt8}

theorem fromUTF8?_eq_some_iff :
    String.fromUTF8? (ByteArray.mk bytes.toArray) = some decoded ↔
      decoded.toByteArray = bytes.toByteArray := by
  have same : ByteArray.mk bytes.toArray = bytes.toByteArray :=
    ByteArray.ext List.data_toByteArray.symm
  rw [same]
  constructor
  · intro read
    rw [String.fromUTF8?] at read
    split at read
    · rw [← Option.some.inj read]
      rfl
    · cases read
  · intro spelled
    rw [← spelled]
    exact dif_pos decoded.isValidUTF8

/-- What is read is what the pieces stand for. -/
theorem decode_eq_ok_iff : decode text = .ok decoded ↔ ∃ pieces, Reads text.toList pieces ∧
    decoded.toByteArray = (pieces.flatMap Piece.bytes).toByteArray := by
  have read : decode text = .ok decoded ↔ ∃ bytes, bytes? text.toList = some bytes ∧
      String.fromUTF8? (ByteArray.mk bytes.toArray) = some decoded := by
    rw [← Option.bind_eq_some_iff, decode]
    split
    next found => rw [found, Except.ok.injEq, Option.some.injEq]
    next none => simp [none]
  simp only [read, fromUTF8?_eq_some_iff]
  constructor
  · rintro ⟨bytes, given, spelled⟩
    obtain ⟨pieces, reads⟩ := exists_reads_of_bytes? given
    rw [reads.bytes?_eq, Option.some.injEq] at given
    exact ⟨pieces, reads, given ▸ spelled⟩
  · rintro ⟨pieces, reads, spelled⟩
    exact ⟨_, reads.bytes?_eq, spelled⟩

theorem exists_decoded_iff : (∃ decoded, decode text = .ok decoded) ↔
    ∃ pieces, Reads text.toList pieces ∧ IsUtf8 (pieces.flatMap Piece.bytes) := by
  simp only [decode_eq_ok_iff]
  constructor
  · rintro ⟨decoded, pieces, reads, spelled⟩
    refine ⟨pieces, reads, ?_⟩
    rw [IsUtf8, ← spelled]
    exact decoded.isValidUTF8
  · rintro ⟨pieces, reads, valid⟩
    exact ⟨.ofByteArray _ valid, pieces, reads, rfl⟩

theorem text_of_failure {failure : Malformed} (failed : decode text = .error failure) :
    failure.text = text := by
  rw [decode] at failed
  split at failed
  · cases failed
  · cases failed
    rfl

theorem decode_append {text' decoded' : String} (h : decode text = .ok decoded)
    (h' : decode text' = .ok decoded') : decode (text ++ text') = .ok (decoded ++ decoded') := by
  obtain ⟨pieces, reads, spelled⟩ := decode_eq_ok_iff.1 h
  obtain ⟨pieces', reads', spelled'⟩ := decode_eq_ok_iff.1 h'
  refine decode_eq_ok_iff.2 ⟨pieces ++ pieces', ?_, ?_⟩
  · rw [String.toList_append]
    exact reads.append reads'
  · rw [String.toByteArray_append, spelled, spelled', List.flatMap_append, List.toByteArray_append]

/-- **What can be read, and what is read.** A text can be read just if each sign that is reached
from the left starts an escape and each maximal run of escapes that are undone spells UTF-8 by
itself. What is read has the bytes of the pieces: an escape stands for its byte, one of a reserved
character and every other character for themselves. A failure names the text. Texts that can be
read can be read one after the other. The bytes are those that two passes give, of which the first
protects what is to be kept and the second undoes every escape. -/
theorem decode_by_runs (text : String) :
    ((∃ decoded, decode text = .ok decoded) ↔ SignsStartEscapes text.toList ∧
      ∀ pieces, Reads text.toList pieces → ∀ run, MaximalRun run pieces →
        IsUtf8 (run.flatMap Piece.bytes)) ∧
    (∀ decoded, decode text = .ok decoded → ∃ pieces, Reads text.toList pieces ∧
      decoded.toByteArray = (pieces.flatMap Piece.bytes).toByteArray) ∧
    (∀ failure, decode text = .error failure → failure.text = text) ∧
    (∀ text' decoded decoded', decode text = .ok decoded → decode text' = .ok decoded' →
      decode (text ++ text') = .ok (decoded ++ decoded')) ∧
    bytes? text.toList = (protect text.toList).map undo := by
  refine ⟨?_, fun _ => decode_eq_ok_iff.1, fun _ => text_of_failure, fun _ _ _ => decode_append,
    bytes?_eq_undo _⟩
  rw [exists_decoded_iff, ← exists_reads_iff]
  simp only [← isUtf8_iff_runs]
  constructor
  · rintro ⟨pieces, reads, valid⟩
    refine ⟨⟨pieces, reads⟩, fun pieces' reads' => ?_⟩
    rwa [reads'.unique reads]
  · rintro ⟨⟨pieces, reads⟩, valid⟩
    exact ⟨pieces, reads, valid pieces reads⟩

/-- An escape that is kept stands between two bytes that spell a character next to each other. -/
theorem decode_by_runs_split_character :
    (¬ ∃ decoded, decode "%C3%2F%BC" = .ok decoded) ∧
      decode ("%C3%BC" ++ "a%2fb") = .ok ("ü" ++ "a%2fb") := by
  constructor
  · intro read
    obtain ⟨-, runs⟩ := (decode_by_runs "%C3%2F%BC").1.1 read
    have reads : Reads "%C3%2F%BC".toList [.escape 'C' '3', .escape '2' 'F', .escape 'B' 'C'] :=
      .escape (by decide) (by decide)
        (.escape (by decide) (by decide) (.escape (by decide) (by decide) .nil))
    have alone : MaximalRun [.escape 'C' '3'] [.escape 'C' '3', .escape '2' 'F', .escape 'B' 'C'] :=
      ⟨[], [.escape '2' 'F', .escape 'B' 'C'], rfl, by decide, by decide, by decide⟩
    have invalid : ¬ ([0xC3] : List UInt8).toByteArray.IsValidUTF8 := by decide
    exact invalid (runs _ reads _ alone)
  · obtain ⟨-, -, -, both, -⟩ := decode_by_runs "%C3%BC"
    exact both "a%2fb" "ü" "a%2fb" rfl rfl

end

end DocQuery.Percent
