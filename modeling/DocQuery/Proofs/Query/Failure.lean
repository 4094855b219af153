import DocQuery.Proofs.Query.Reading
import DocQuery.Proofs.Text.Decoding

/-!
# Texts that are no query

A text is refused as a query for a malformed literal: a key, an option or a value with an escape that
cannot be undone. `Literals` says what the literals of a segment are, in the order in which they are
decoded.

* `unwrapped_splitMarker`, `Unwrapped.unique`: which marker is taken off a pattern;
* `Element.parse_eq_error_iff`: a segment is refused for the first of its literals that is malformed;
* `parse_fails_iff_bad_segment`: so is a text for that of its first bad segment, and what stands
  elsewhere plays no part.
-/

namespace DocQuery

open Percent (Malformed)

/-! ## The literals of a segment -/

/-- Undoes the escapes of a literal. -/
def decodeLiteral (text : List Char) : Except Malformed String :=
  Percent.decode (String.ofList text)

def IsMalformed (text : List Char) : Prop :=
  ∃ failure, decodeLiteral text = .error failure

/-- The brackets of a marker stand around `content`, and none of its kind inside. -/
structure Marker.Wraps (marker : Marker) (content text : List Char) : Prop where
  around : text = marker.opening :: (content ++ [marker.closing])
  opening : marker.opening ∉ content
  closing : marker.closing ∉ content

/-- What is left of a pattern when the marker that wraps it is taken off. -/
inductive Unwrapped (text : List Char) : List Char → Prop
  | marked {marker : Marker} {content : List Char} (wraps : marker.Wraps content text) :
      Unwrapped text content
  | bare (none : ∀ (marker : Marker) content, ¬ marker.Wraps content text) : Unwrapped text text

/-- The parts of a pattern between `^` that are read: the first, which is about the key, and the one
after it, if there is one, which is the value. -/
def HasParts (segment keys : List Char) (value : Option (List Char)) : Prop :=
  ∃ content rest, Unwrapped segment content ∧ Segments.split '^' content = keys :: rest ∧
    rest.head? = value

/-- The names that stand in the first part. A symbol is none. -/
def keyNames (keys : List Char) : List (List Char) :=
  if keys = ['|'] ∨ keys = ['"'] then [] else Segments.split '<' keys

/-- The literals of a segment that is no skip, in the order in which they are decoded. -/
inductive Literals (segment : List Char) : List (List Char) → Prop
  | key (plain : isQueryText segment = false) : Literals segment [segment]
  | pattern {keys : List Char} {value : Option (List Char)} (special : isQueryText segment = true)
      (parts : HasParts segment keys value) (noSkip : keys ≠ ['\\']) :
      Literals segment (value.toList ++ keyNames keys)

/-- Some literal of the segment is malformed. -/
def BadSegment (segment : List Char) : Prop :=
  ∃ literals, Literals segment literals ∧ ∃ literal ∈ literals, IsMalformed literal

def FirstMalformed (literals : List (List Char)) (literal : List Char) : Prop :=
  ∃ before after, literals = before ++ literal :: after ∧
    (∀ earlier ∈ before, ¬ IsMalformed earlier) ∧ IsMalformed literal

/-- Two segments that differ at most behind the backslash of a skip, in the value that stands with
one, or behind a second `^`. -/
inductive SameLiterals : List Char → List Char → Prop
  | same (segment : List Char) : SameLiterals segment segment
  | skip (rest rest' : List Char) : SameLiterals ('\\' :: rest) ('\\' :: rest')
  | pattern {segment segment' keys : List Char} {value value' : Option (List Char)}
      (start : segment.head? ≠ some '\\') (start' : segment'.head? ≠ some '\\')
      (parts : HasParts segment keys value) (parts' : HasParts segment' keys value')
      (same : keys = ['\\'] ∨ value = value') : SameLiterals segment segment'

/-! ## Malformed literals -/

/-- The failure of a literal names it. -/
theorem decodeLiteral_eq_error_iff {text : List Char} {failure : Malformed} :
    decodeLiteral text = .error failure ↔
      IsMalformed text ∧ failure.text = String.ofList text := by
  constructor
  · intro failed
    exact ⟨⟨failure, failed⟩, Percent.text_of_failure failed⟩
  · rintro ⟨⟨other, failed⟩, named⟩
    have same : other.text = failure.text := (Percent.text_of_failure failed).trans named.symm
    obtain rfl : other = failure := congrArg Malformed.mk same
    exact failed

theorem mapM_decodeLiteral_eq_error_iff {literals : List (List Char)} {failure : Malformed} :
    literals.mapM decodeLiteral = .error failure ↔
      ∃ literal, FirstMalformed literals literal ∧ failure.text = String.ofList literal := by
  simp only [mapM_eq_error_iff, decodeLiteral_eq_error_iff, FirstMalformed]
  constructor
  · rintro ⟨before, literal, after, split, fine, malformed, named⟩
    refine ⟨literal, ⟨before, after, split, fun earlier mem => ?_, malformed⟩, named⟩
    rintro ⟨other, failed⟩
    exact fine earlier mem other failed
  · rintro ⟨literal, ⟨before, after, split, fine, malformed⟩, named⟩
    exact ⟨before, literal, after, split, fun earlier mem other h => fine earlier mem ⟨other, h⟩,
      malformed, named⟩

/-! ## Markers -/

section

variable {marker marker' : Marker} {content content' text : List Char}

theorem Marker.Wraps.unique (h : marker.Wraps content text) (h' : marker'.Wraps content' text) :
    content = content' := by
  obtain ⟨first, rest⟩ := List.cons.inj (h.around.symm.trans h'.around)
  -- The two markers open with different characters.
  have same : marker = marker' := by
    cases marker <;> cases marker' <;> first | rfl | cases first
  subst same
  exact List.append_cancel_right rest

theorem Marker.wraps_brackets_iff :
    marker.Wraps content (marker.opening :: (content' ++ [marker.closing])) ↔
      content' = content ∧ marker.opening ∉ content ∧ marker.closing ∉ content := by
  constructor
  · rintro ⟨around, opening, closing⟩
    exact ⟨List.append_cancel_right (List.cons.inj around).2, opening, closing⟩
  · rintro ⟨rfl, opening, closing⟩
    exact ⟨rfl, opening, closing⟩

theorem Pattern.unwrap?_eq_some_iff :
    unwrap? marker text = some content ↔ marker.Wraps content text := by
  cases text with
  | nil =>
    constructor
    · intro none
      cases none
    · intro h
      cases h.around
  | cons c rest =>
    rw [unwrap?]
    split
    next brackets =>
      obtain ⟨rfl, last⟩ := brackets
      obtain ⟨inner, rfl⟩ := List.getLast?_eq_some_iff.1 last
      rw [List.dropLast_concat, Marker.wraps_brackets_iff]
      simp only [List.contains_iff_mem]
      split
      next inside =>
        constructor
        · intro none
          cases none
        · rintro ⟨rfl, opening, closing⟩
          exact absurd inside (not_or.2 ⟨opening, closing⟩)
      next free =>
        rw [not_or] at free
        constructor
        · intro same
          obtain rfl := Option.some.inj same
          exact ⟨rfl, free⟩
        · rintro ⟨rfl, -⟩
          rfl
    next other =>
      constructor
      · intro none
        cases none
      · intro h
        obtain ⟨rfl, rfl⟩ := List.cons.inj h.around
        exact absurd ⟨rfl, List.getLast?_concat⟩ other

theorem Unwrapped.unique (h : Unwrapped text content) (h' : Unwrapped text content') :
    content = content' := by
  cases h with
  | marked wraps =>
    cases h' with
    | marked wraps' => exact wraps.unique wraps'
    | bare none => exact absurd wraps (none _ _)
  | bare none =>
    cases h' with
    | marked wraps => exact absurd wraps (none _ _)
    | bare => rfl

theorem unwrapped_splitMarker (text : List Char) : Unwrapped text (Pattern.splitMarker text).2 := by
  rw [Pattern.splitMarker]
  split
  next bracket => exact .marked (Pattern.unwrap?_eq_some_iff.1 bracket)
  next noBracket =>
    split
    next curly => exact .marked (Pattern.unwrap?_eq_some_iff.1 curly)
    next noCurly =>
      refine .bare fun marker content wraps => ?_
      have wrapped := Pattern.unwrap?_eq_some_iff.2 wraps
      cases marker with
      | bracket =>
        rw [noBracket] at wrapped
        cases wrapped
      | curly =>
        rw [noCurly] at wrapped
        cases wrapped

end

/-! ## Parts -/

section

variable {segment keys keys' : List Char} {value value' : Option (List Char)}

theorem hasParts (segment : List Char) : ∃ keys value, HasParts segment keys value := by
  obtain ⟨keys, rest, parts⟩ :=
    List.exists_cons_of_ne_nil (Segments.split_ne_nil '^' (Pattern.splitMarker segment).2)
  exact ⟨keys, rest.head?, _, rest, unwrapped_splitMarker segment, parts, rfl⟩

theorem HasParts.split_eq (h : HasParts segment keys value) : ∃ rest,
    Segments.split '^' (Pattern.splitMarker segment).2 = keys :: rest ∧ rest.head? = value := by
  obtain ⟨content, rest, unwrapped, parts, rfl⟩ := h
  rw [(unwrapped_splitMarker segment).unique unwrapped]
  exact ⟨rest, parts, rfl⟩

theorem HasParts.unique (h : HasParts segment keys value) (h' : HasParts segment keys' value') :
    keys = keys' ∧ value = value' := by
  obtain ⟨rest, parts, rfl⟩ := h.split_eq
  obtain ⟨rest', parts', rfl⟩ := h'.split_eq
  obtain ⟨rfl, rfl⟩ := List.cons.inj (parts.symm.trans parts')
  exact ⟨rfl, rfl⟩

/-- A segment with no pattern character is all key. -/
theorem hasParts_of_plain (plain : isQueryText segment = false) : HasParts segment segment none := by
  refine ⟨segment, [], .bare fun marker content wraps => ?_, ?_, rfl⟩
  · have opened : marker.opening ∈ segment := wraps.around ▸ .head _
    cases marker <;> exact not_mem_of_plain plain (by decide) opened
  · exact Segments.split_eq_singleton (not_mem_of_plain plain (by decide))

end

/-! ## Elements -/

section

variable {segment keys : List Char} {value : Option (List Char)} {failure : Malformed}

namespace Pattern

theorem parseKeyTest_eq_error_iff :
    parseKeyTest keys = .error failure ↔ (keyNames keys).mapM decodeLiteral = .error failure := by
  by_cases symbol : keys = ['|'] ∨ keys = ['"']
  · rw [keyNames, if_pos symbol]
    obtain rfl | rfl := symbol <;> exact ⟨nofun, nofun⟩
  · obtain ⟨noAny, noPrimitive⟩ := not_or.1 symbol
    rw [keyNames, if_neg symbol, parseKeyTest, if_neg noAny, if_neg noPrimitive]
    split
    next => exact map_eq_error_iff
    next one =>
      rw [List.contains_iff_mem] at one
      rw [map_eq_error_iff, Segments.split_eq_singleton one, mapM_singleton_eq_error_iff]
      rfl

theorem parseValue_eq_error_iff :
    parseValue value = .error failure ↔ value.toList.mapM decodeLiteral = .error failure := by
  cases value with
  | none => exact ⟨nofun, nofun⟩
  | some text =>
    rw [parseValue, map_eq_error_iff, Option.toList_some, mapM_singleton_eq_error_iff]
    rfl

/-- The value is decoded before the names. -/
theorem parseChars_eq_error_iff (parts : HasParts segment keys value) :
    parseChars segment = .error failure ↔
      keys ≠ ['\\'] ∧ (value.toList ++ keyNames keys).mapM decodeLiteral = .error failure := by
  obtain ⟨rest, split, rfl⟩ := parts.split_eq
  rw [parseChars]
  simp only [split, List.headD_cons, List.getElem?_cons_succ, ← List.head?_eq_getElem?]
  by_cases skip : keys = ['\\']
  · simp [skip]
  · rw [if_neg skip, (inTurn_mapM _ _ _).error_iff, exists_ok_iff]
    simp only [ne_eq, ← parseValue_eq_error_iff, ← parseKeyTest_eq_error_iff]
    cases parseValue rest.head? with
    | error => simp [bind, Except.bind, skip]
    | ok given =>
      cases parseKeyTest keys with
      | error => simp [bind, Except.bind, skip]
      | ok asked =>
        simp only [bind, Except.bind]
        split <;> simp [pure, Except.pure]

end Pattern

theorem keyNames_of_plain (plain : isQueryText segment = false) : keyNames segment = [segment] := by
  have noSymbol : ¬ (segment = ['|'] ∨ segment = ['"']) := by
    rintro (rfl | rfl) <;> cases plain
  rw [keyNames, if_neg noSymbol,
    Segments.split_eq_singleton (not_mem_of_plain plain (by decide))]

namespace Element

theorem parse_of_skip (start : segment.head? = some '\\') : parse segment = .ok .skip := by
  rw [parse, if_pos start]

/-- Whether a segment looks like a key or like a pattern makes no difference to its failures. -/
theorem parse_eq_error_iff_of_parts (start : segment.head? ≠ some '\\')
    (parts : HasParts segment keys value) :
    parse segment = .error failure ↔
      keys ≠ ['\\'] ∧ (value.toList ++ keyNames keys).mapM decodeLiteral = .error failure := by
  cases special : isQueryText segment with
  | false =>
    -- All of the segment is the first part, and the only name in it.
    obtain ⟨rfl, rfl⟩ := parts.unique (hasParts_of_plain special)
    have noSkip : keys ≠ ['\\'] := fun skip => start (by rw [skip]; rfl)
    rw [parse_of_plain special, map_eq_error_iff, keyNames_of_plain special, Option.toList_none,
      List.nil_append, mapM_singleton_eq_error_iff]
    exact (and_iff_right noSkip).symm
  | true =>
    rw [parse, if_neg start, special, if_pos rfl, map_eq_error_iff,
      Pattern.parseChars_eq_error_iff parts]

theorem literals_iff (start : segment.head? ≠ some '\\') (parts : HasParts segment keys value)
    {literals : List (List Char)} :
    Literals segment literals ↔ keys ≠ ['\\'] ∧ literals = value.toList ++ keyNames keys := by
  constructor
  · intro has
    cases has with
    | key plain =>
      obtain ⟨rfl, rfl⟩ := parts.unique (hasParts_of_plain plain)
      exact ⟨fun skip => start (by rw [skip]; rfl), (keyNames_of_plain plain).symm⟩
    | pattern _ parts' noSkip =>
      obtain ⟨rfl, rfl⟩ := parts.unique parts'
      exact ⟨noSkip, rfl⟩
  · rintro ⟨noSkip, rfl⟩
    cases special : isQueryText segment with
    | false =>
      obtain ⟨rfl, rfl⟩ := parts.unique (hasParts_of_plain special)
      rw [keyNames_of_plain special]
      exact .key special
    | true => exact .pattern special parts noSkip

/-- A segment is refused for the first of its literals that cannot be decoded. -/
theorem parse_eq_error_iff : parse segment = .error failure ↔
    segment.head? ≠ some '\\' ∧
      ∃ literals, Literals segment literals ∧ literals.mapM decodeLiteral = .error failure := by
  by_cases start : segment.head? = some '\\'
  · simp [parse_of_skip start, start]
  · obtain ⟨keys, value, parts⟩ := hasParts segment
    simp only [parse_eq_error_iff_of_parts start parts, literals_iff start parts, ne_eq, start,
      not_false_eq_true, true_and, and_assoc, exists_and_left, exists_eq_left]

theorem parse_fails_iff : (∃ failure, parse segment = .error failure) ↔
    segment.head? ≠ some '\\' ∧ BadSegment segment := by
  have malformed (literals : List (List Char)) :
      (∃ failure, literals.mapM decodeLiteral = .error failure) ↔
        ∃ literal ∈ literals, IsMalformed literal := exists_mapM_error_iff
  simp only [parse_eq_error_iff, BadSegment, ← malformed]
  constructor
  · rintro ⟨failure, start, literals, has, failed⟩
    exact ⟨start, literals, has, failure, failed⟩
  · rintro ⟨start, literals, has, failure, failed⟩
    exact ⟨failure, start, literals, has, failed⟩

theorem parse_eq_error_iff_of_sameLiterals {segment' : List Char}
    (same : SameLiterals segment segment') :
    parse segment = .error failure ↔ parse segment' = .error failure := by
  cases same with
  | same => rfl
  | skip rest rest' =>
    have first : parse ('\\' :: rest) = .ok .skip := parse_of_skip rfl
    have second : parse ('\\' :: rest') = .ok .skip := parse_of_skip rfl
    rw [first, second]
  | pattern start start' parts parts' same =>
    rw [parse_eq_error_iff_of_parts start parts, parse_eq_error_iff_of_parts start' parts']
    obtain rfl | rfl := same
    · simp
    · rfl

end Element

end

/-- **A text is refused as a query for its first bad segment**, and for the first literal there that
is malformed. Escapes in other places are not looked at. -/
theorem parse_fails_iff_bad_segment :
    (∀ text : String, (∃ failure, Query.parse text = .error failure) ↔
      ∃ segment ∈ Segments.split Path.separator text.toList,
        segment.head? ≠ some '\\' ∧ BadSegment segment) ∧
    (∀ (text : String) (failure : Malformed), Query.parse text = .error failure ↔
      ∃ before segment after,
        Segments.split Path.separator text.toList = before ++ segment :: after ∧
        (∀ earlier ∈ before, ¬ (earlier.head? ≠ some '\\' ∧ BadSegment earlier)) ∧
        segment.head? ≠ some '\\' ∧ ∃ literals literal, Literals segment literals ∧
          FirstMalformed literals literal ∧ failure.text = String.ofList literal) ∧
    ∀ text text' : String, List.Forall₂ SameLiterals
        (Segments.split Path.separator text.toList) (Segments.split Path.separator text'.toList) →
      ∀ failure, Query.parse text = .error failure ↔ Query.parse text' = .error failure := by
  refine ⟨fun text => ?_, fun text failure => ?_, fun text text' same failure => ?_⟩
  · rw [Query.parse, exists_mapM_error_iff]
    simp only [Element.parse_fails_iff]
  · have fine (segment : List Char) : (∀ failure, Element.parse segment ≠ .error failure) ↔
        ¬ (segment.head? ≠ some '\\' ∧ BadSegment segment) := by
      rw [← Element.parse_fails_iff, not_exists]
    rw [Query.parse, mapM_eq_error_iff]
    simp only [fine, Element.parse_eq_error_iff, mapM_decodeLiteral_eq_error_iff, exists_and_left]
  · exact mapM_error_congr (same.imp fun _ _ h _ => Element.parse_eq_error_iff_of_sameLiterals h)

/-- The first segment is a skip, and the second is refused for its second option. -/
theorem parse_fails_behind_skip :
    List.Forall₂ SameLiterals
        (Segments.split Path.separator "\\%1>\x7ba<%2^v^%3\x7d>%4".toList)
        (Segments.split Path.separator "\\>\x7ba<%2^v\x7d>%4".toList) ∧
      Query.parse "\\%1>\x7ba<%2^v^%3\x7d>%4" = .error ⟨"%2"⟩ ∧
      Query.parse "\\>\x7ba<%2^v\x7d>%4" = .error ⟨"%2"⟩ := by
  have alike : List.Forall₂ SameLiterals
      (Segments.split Path.separator "\\%1>\x7ba<%2^v^%3\x7d>%4".toList)
      (Segments.split Path.separator "\\>\x7ba<%2^v\x7d>%4".toList) := by
    have parts : HasParts "\x7ba<%2^v^%3\x7d".toList "a<%2".toList (some ['v']) :=
      ⟨_, _, unwrapped_splitMarker _, rfl, rfl⟩
    have parts' : HasParts "\x7ba<%2^v\x7d".toList "a<%2".toList (some ['v']) :=
      ⟨_, _, unwrapped_splitMarker _, rfl, rfl⟩
    have second : SameLiterals "\x7ba<%2^v^%3\x7d".toList "\x7ba<%2^v\x7d".toList :=
      .pattern (by decide) (by decide) parts parts' (.inr rfl)
    exact .cons (.skip _ _) (.cons second (.cons (.same _) .nil))
  have failed : Query.parse "\\>\x7ba<%2^v\x7d>%4" = .error ⟨"%2"⟩ := by rfl
  exact ⟨alike, (parse_fails_iff_bad_segment.2.2 _ _ alike _).2 failed, failed⟩

end DocQuery
