import DocQuery.Text.Percent

/-!
# Reading escapes back

* `escaped_encode`: an escaped text is made of plain characters and of escapes with upper-case
  digits, so it holds no character of the grammar (`not_mem_encode`);
* `decode_encode`: reading an escaped text gives the text. No reserved character is ever escaped, so
  every escape that was written is undone;
* `escapes_faithful`: both at once.
-/

namespace DocQuery.Percent

/-! ## What is written -/

/-- The characters of escaped texts. -/
def IsEncoded (c : Char) : Prop :=
  isPlain c = true ∨ c = '%'

instance (c : Char) : Decidable (IsEncoded c) :=
  inferInstanceAs (Decidable (_ ∨ _))

/-- The digits of escapes. -/
def digits : List Char :=
  "0123456789ABCDEF".toList

/-- The characters of the grammar, and the space and the backquote, which set a text apart from what
stands around it. -/
def grammar : List Char :=
  "><^|\"\\[]\x7b\x7d `".toList

/-- Texts of plain characters and of escapes. -/
inductive Escaped : List Char → Prop
  | nil : Escaped []
  | plain {c : Char} {text : List Char} (visible : isPlain c = true) (rest : Escaped text) :
      Escaped (c :: text)
  | escape {text : List Char} (byte : UInt8) (rest : Escaped text) :
      Escaped (escape byte ++ text)

theorem isPlain_of_mem_digits {c : Char} (h : c ∈ digits) : isPlain c = true := by
  have all : digits.all isPlain = true := by decide
  exact List.all_eq_true.1 all c h

theorem upper_mem_digits {n : Nat} (h : n < 16) : Hex.upper n ∈ digits := by
  have all : ∀ n, n < 16 → Hex.upper n ∈ digits := by decide
  exact all n h

/-- A byte has two digits. -/
theorem exists_escape_eq (byte : UInt8) :
    ∃ high ∈ digits, ∃ low ∈ digits, escape byte = ['%', high, low] := by
  have bound := byte.toNat_lt
  have high : byte.toNat / 16 < 16 := by omega
  have low : byte.toNat % 16 < 16 := by omega
  exact ⟨_, upper_mem_digits high, _, upper_mem_digits low, rfl⟩

theorem escaped_encodeChar (c : Char) {text : List Char} (rest : Escaped text) :
    Escaped (encodeChar c ++ text) := by
  rw [encodeChar]
  split
  next plain => exact .plain plain rest
  next =>
    induction String.utf8EncodeChar c with
    | nil => exact rest
    | cons byte bytes ih =>
      rw [List.flatMap_cons, List.append_assoc]
      exact .escape byte ih

theorem escaped_encode (text : String) : Escaped (encode text).toList := by
  rw [encode, String.toList_ofList]
  induction text.toList with
  | nil => exact .nil
  | cons c text ih =>
    rw [List.flatMap_cons]
    exact escaped_encodeChar c ih

namespace Escaped

variable {text before after : List Char} {c : Char}

theorem isEncoded (h : Escaped text) (mem : c ∈ text) : IsEncoded c := by
  induction h with
  | nil => cases mem
  | plain plain _ ih =>
    obtain rfl | later := List.mem_cons.1 mem
    · exact .inl plain
    · exact ih later
  | escape byte _ ih =>
    obtain here | later := List.mem_append.1 mem
    · obtain ⟨high, hh, low, hl, written⟩ := exists_escape_eq byte
      obtain rfl | rfl | rfl : c = '%' ∨ c = high ∨ c = low := by simpa [written] using here
      · exact .inr rfl
      · exact .inl (isPlain_of_mem_digits hh)
      · exact .inl (isPlain_of_mem_digits hl)
    · exact ih later

/-- A percent sign starts an escape. It is neither plain nor a digit. -/
theorem digits_of_sign (h : Escaped text) (sign : text = before ++ '%' :: after) :
    ∃ high ∈ digits, ∃ low ∈ digits, ∃ rest, after = high :: low :: rest := by
  induction h generalizing before with
  | nil => cases before <;> cases sign
  | plain plain _ ih =>
    cases before with
    | nil =>
      obtain ⟨rfl, -⟩ := List.cons.inj sign
      exact absurd plain (by decide)
    | cons _ before => exact ih (List.cons.inj sign).2
  | @escape text byte _ ih =>
    obtain ⟨high, hh, low, hl, written⟩ := exists_escape_eq byte
    rw [written] at sign
    -- The sign is the first character of the escape or stands further on.
    match before with
    | [] =>
      obtain ⟨-, rfl⟩ := List.cons.inj sign
      exact ⟨high, hh, low, hl, text, rfl⟩
    | [_] =>
      obtain ⟨-, rfl, -⟩ : _ ∧ high = '%' ∧ _ := by simpa using sign
      exact absurd hh (by decide)
    | [_, _] =>
      obtain ⟨-, -, rfl, -⟩ : _ ∧ _ ∧ low = '%' ∧ _ := by simpa using sign
      exact absurd hl (by decide)
    | _ :: _ :: _ :: before =>
      obtain ⟨-, -, -, later⟩ : _ ∧ _ ∧ _ ∧ text = before ++ '%' :: after := by simpa using sign
      exact ih later

end Escaped

theorem mem_encode {text : String} {c : Char} (h : c ∈ (encode text).toList) : IsEncoded c :=
  (escaped_encode text).isEncoded h

theorem not_mem_encode {c : Char} (special : ¬ IsEncoded c) (text : String) :
    c ∉ (encode text).toList :=
  mt mem_encode special

theorem IsEncoded.visible {c : Char} (h : IsEncoded c) : 0x20 < c.toNat ∧ c.toNat < 0x7f := by
  obtain plain | rfl := h
  · obtain ⟨low, high, -⟩ : '!' ≤ c ∧ c ≤ '~' ∧ c ∉ "\"%<>[\\]^`\x7b|\x7d".toList := by
      simpa [isPlain] using plain
    have above : '!'.toNat ≤ c.toNat := low
    have below : c.toNat ≤ '~'.toNat := high
    exact ⟨above, Nat.lt_succ_of_le below⟩
  · decide

theorem IsEncoded.not_mem_grammar {c : Char} (h : IsEncoded c) : c ∉ grammar := by
  have none : (grammar.all fun d => decide (¬ IsEncoded d)) = true := by decide
  intro special
  exact of_decide_eq_true (List.all_eq_true.1 none c special) h

/-! ## What is read -/

/-- Reserved characters are plain. -/
theorem isPlain_of_isReserved {c : Char} (h : isReserved c.toNat = true) :
    isPlain c = true ∧ c.toNat < 128 := by
  obtain ⟨d, hd, same⟩ := List.mem_map.1 (List.contains_iff_mem.1 h)
  obtain rfl := Char.toNat_inj.1 same
  have all : (";/?:@&=+$,#".toList.all fun d => isPlain d && decide (d.toNat < 128)) = true := by
    decide
  simpa using List.all_eq_true.1 all d hd

theorem not_isReserved_of_le {byte : Nat} (h : 128 ≤ byte) : isReserved byte = false := by
  rw [← Bool.not_eq_true]
  intro reserved
  obtain ⟨d, hd, rfl⟩ := List.mem_map.1 (List.contains_iff_mem.1 reserved)
  have ascii := (isPlain_of_isReserved reserved).2
  omega

/-- What `encode` escapes is read back: a reserved character stands for itself, and all bytes of a
character that is not ASCII are beyond the reserved ones. -/
theorem not_isReserved_of_mem {c : Char} {byte : UInt8} (special : isPlain c = false)
    (h : byte ∈ String.utf8EncodeChar c) : isReserved byte.toNat = false := by
  simp only [String.utf8EncodeChar] at h
  split at h
  next ascii =>
    obtain rfl := List.mem_singleton.1 h
    have same : (UInt8.ofNat c.val.toNat).toNat = c.toNat := by
      rw [UInt8.toNat_ofNat']
      exact Nat.mod_eq_of_lt (by omega)
    rw [same, ← Bool.not_eq_true]
    intro reserved
    rw [(isPlain_of_isReserved reserved).1] at special
    cases special
  next =>
    apply not_isReserved_of_le
    split at h
    · simp only [List.mem_cons, List.not_mem_nil, or_false] at h
      obtain rfl | rfl := h <;> rw [UInt8.toNat_ofNat'] <;> omega
    · split at h <;> simp only [List.mem_cons, List.not_mem_nil, or_false] at h
      · obtain rfl | rfl | rfl := h <;> rw [UInt8.toNat_ofNat'] <;> omega
      · obtain rfl | rfl | rfl | rfl := h <;> rw [UInt8.toNat_ofNat'] <;> omega

theorem bytes?_escape {byte : UInt8} (free : isReserved byte.toNat = false) (rest : List Char) :
    bytes? (escape byte ++ rest) = (bytes? rest).map (byte :: ·) := by
  have bound := byte.toNat_lt
  have whole : 16 * (byte.toNat / 16) + byte.toNat % 16 = byte.toNat := Nat.div_add_mod _ _
  simp only [escape, List.cons_append, List.nil_append, bytes?,
    Hex.value?_upper (show byte.toNat / 16 < 16 by omega),
    Hex.value?_upper (show byte.toNat % 16 < 16 by omega), whole, free]
  simp

theorem bytes?_escapes {bytes : List UInt8}
    (free : ∀ byte ∈ bytes, isReserved byte.toNat = false) (rest : List Char) :
    bytes? (bytes.flatMap escape ++ rest) = (bytes? rest).map (bytes ++ ·) := by
  induction bytes with
  | nil => simp
  | cons byte bytes ih =>
    rw [List.flatMap_cons, List.append_assoc, bytes?_escape (free byte (.head _)),
      ih fun b hb => free b (.tail _ hb), Option.map_map]
    rfl

theorem bytes?_encodeChar (c : Char) (rest : List Char) :
    bytes? (encodeChar c ++ rest) = (bytes? rest).map (String.utf8EncodeChar c ++ ·) := by
  rw [encodeChar]
  split
  next plain =>
    have sign : c ≠ '%' := by
      rintro rfl
      exact absurd plain (by decide)
    rw [List.singleton_append, bytes?]
    intro e
    exact sign e
  next special =>
    exact bytes?_escapes (fun _ h => not_isReserved_of_mem (by simpa using special) h) rest

theorem bytes?_encode (text : String) :
    bytes? (encode text).toList = some (text.toList.flatMap String.utf8EncodeChar) := by
  rw [encode, String.toList_ofList]
  induction text.toList with
  | nil => rfl
  | cons c text ih => rw [List.flatMap_cons, bytes?_encodeChar, ih, List.flatMap_cons]; rfl

/-- An escaped text is read back as it was. -/
theorem decode_encode (text : String) : decode (encode text) = .ok text := by
  have bytes : ByteArray.mk (text.toList.flatMap String.utf8EncodeChar).toArray =
      text.toByteArray := by
    rw [← String.utf8Encode_toList, List.utf8Encode]
    exact ByteArray.ext List.data_toByteArray.symm
  have valid : String.fromUTF8? text.toByteArray = some text := dif_pos text.isValidUTF8
  rw [decode, bytes?_encode, Option.bind_some, bytes, valid]

/-- **Escaping loses nothing and hides the grammar.** What was escaped is read back, for any text.
It is written in visible ASCII without a character of the grammar, and each percent sign in it starts
an escape of two upper-case digits. -/
theorem escapes_faithful (text : String) :
    decode (encode text) = .ok text ∧
    (∀ c ∈ (encode text).toList, 0x20 < c.toNat ∧ c.toNat < 0x7f ∧ c ∉ grammar) ∧
    ∀ before after, (encode text).toList = before ++ '%' :: after →
      ∃ high ∈ digits, ∃ low ∈ digits, ∃ rest, after = high :: low :: rest := by
  refine ⟨decode_encode text, fun c h => ?_, fun before after sign => ?_⟩
  · have written := mem_encode h
    exact ⟨written.visible.1, written.visible.2, written.not_mem_grammar⟩
  · exact (escaped_encode text).digits_of_sign sign

theorem escapes_faithful_mixed :
    decode "100%25%20%C3%BC%3E" = .ok "100% ü>" ∧
      '>' ∉ "100%25%20%C3%BC%3E".toList ∧
      ∃ high ∈ digits, ∃ low ∈ digits, ∃ rest, "C3%BC%3E".toList = high :: low :: rest := by
  have text : encode "100% ü>" = "100%25%20%C3%BC%3E" := by decide
  obtain ⟨read, written, signs⟩ := escapes_faithful "100% ü>"
  rw [text] at read written signs
  refine ⟨read, fun h => ?_, signs "100%25%20".toList _ rfl⟩
  exact (written _ h).2.2 (by decide)

end DocQuery.Percent
