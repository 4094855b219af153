import DocQuery.Command.Run
import DocQuery.Proofs.Query.Printing
import DocQuery.Text.Cursor

/-!
# Texts read segment by segment

* `Cursor.readAll_append`: a cursor between two characters reads the segments of what is left;
* `separator_joins_readings`: two texts with a separator between them are read one after the other,
  as paths and as queries, and the cursor reads what the parsers read;
* `classified_text_same_query`: a text that is first taken for a path or for a query gives the query
  that it gives without.
-/

namespace DocQuery

variable {α ε : Type} {separator : Char}

/-! ## Segments -/

namespace Segments

variable {segment : String}

theorem join_ofText (separator : Char) (text : String) :
    join separator (ofText separator text) = text := by
  have pieces : (ofText separator text).map String.toList = text.toList.splitOn separator := by
    simp [ofText, split_eq_splitOn]
  rw [join, pieces, List.intercalate_splitOn, String.ofList_toList]

theorem ofText_of_not_mem (free : separator ∉ segment.toList) :
    ofText separator segment = [segment] := by
  rw [ofText, split_eq_singleton free, List.map_singleton, String.ofList_toList]

theorem ofText_append (a b : String) :
    ofText separator (a ++ (String.singleton separator ++ b)) =
      ofText separator a ++ ofText separator b := by
  have chars : (a ++ (String.singleton separator ++ b)).toList =
      a.toList ++ separator :: b.toList := by
    simp
  rw [ofText, chars, split_append, List.map_append, ofText, ofText]

theorem exists_first_segment {text : String} (h : separator ∈ text.toList) :
    ∃ segment after, text = segment ++ (String.singleton separator ++ after) ∧
      separator ∉ segment.toList := by
  obtain ⟨first, others, split, free⟩ := List.eq_append_cons_of_mem h
  refine ⟨.ofList first, .ofList others, String.toList_inj.1 ?_, by simpa using free⟩
  simp [split]

theorem split_ne_nil (separator : Char) (text : List Char) : split separator text ≠ [] := by
  rw [split_eq_splitOn]
  exact List.splitOn_ne_nil _ _

/-- What is sought in a text, and is not the separator, is found in a segment. -/
theorem any_split {p : Char → Bool} (other : p separator = false) (text : List Char) :
    (split separator text).any (·.any p) = text.any p := by
  induction text with
  | nil => rfl
  | cons c text ih =>
    rw [split]
    split
    next same => simp [same, other, ih]
    next =>
      split
      next none => exact absurd none (split_ne_nil _ _)
      next piece pieces some => simp [← ih, some, Bool.or_assoc]

end Segments

/-! ## The cursor -/

namespace Cursor

variable {c later : Cursor} {segment : String}

theorem exists_pos? (before after : String) :
    ∃ p, (before ++ after).pos? ⟨before.utf8ByteSize⟩ = some p ∧ p.Splits before after := by
  have valid : String.Pos.Raw.IsValid (before ++ after) ⟨before.utf8ByteSize⟩ :=
    String.Pos.Raw.isValid_iff_exists_append.2 ⟨before, after, rfl, rfl⟩
  refine ⟨String.pos _ _ valid, ?_, rfl, rfl⟩
  simp [String.pos?, String.Slice.pos?, valid, String.pos]

theorem from?_append (before after : String) :
    from? (before ++ after) before.utf8ByteSize = some after := by
  obtain ⟨p, hp, split⟩ := exists_pos? before after
  rw [from?, hp, Option.map_some, String.copy_sliceFrom_eq_iff_exists_splits.2 ⟨_, split⟩]

theorem upTo?_append (before after : String) :
    upTo? (before ++ after) before.utf8ByteSize = some before := by
  obtain ⟨p, hp, split⟩ := exists_pos? before after
  rw [upTo?, hp, Option.map_some, String.copy_sliceTo_eq_iff_exists_splits.2 ⟨_, split⟩]

theorem find?_of_separator (free : separator ∉ segment.toList) (after : String) :
    ((segment ++ (String.singleton separator ++ after)).find? separator).map
      (·.offset.byteIdx) = some segment.utf8ByteSize := by
  obtain ⟨p, -, split⟩ := exists_pos? segment (String.singleton separator ++ after)
  have found : (segment ++ (String.singleton separator ++ after)).find? separator = some p :=
    String.find?_char_eq_some_iff_splits.2 ⟨segment, after, split, free⟩
  rw [found, Option.map_some, split.offset_eq_rawEndPos, String.byteIdx_rawEndPos]

theorem find?_eq_none (free : separator ∉ segment.toList) : segment.find? separator = none := by
  rw [String.find?_eq_find?_toSlice, Option.map_eq_none_iff, String.Slice.find?_eq_none_iff,
    ← String.contains_eq_contains_toSlice, String.contains_char_eq, decide_eq_false_iff_not]
  exact free

/-- Behind a separator the cursor is between two characters again. -/
theorem next?_of_separator (before after : String) (free : separator ∉ segment.toList) :
    next? separator
        ⟨before ++ (segment ++ (String.singleton separator ++ after)), before.utf8ByteSize⟩ =
      some (segment, ⟨before ++ (segment ++ (String.singleton separator ++ after)),
        (before ++ (segment ++ String.singleton separator)).utf8ByteSize⟩) := by
  simp [next?, from?_append, find?_of_separator free, upTo?_append, Nat.add_assoc]

/-- Behind the last segment the cursor is past the end. -/
theorem next?_of_not_mem (before : String) (free : separator ∉ segment.toList) :
    next? separator ⟨before ++ segment, before.utf8ByteSize⟩ =
      some (segment, ⟨before ++ segment,
        (before ++ segment).utf8ByteSize + separator.utf8Size⟩) := by
  have whole := upTo?_append segment ""
  rw [String.append_empty] at whole
  simp [next?, from?_append, find?_eq_none free, whole]

theorem readAll_of_atEnd (read : String → Except ε α) (h : c.atEnd = true) :
    readAll separator read c = some (.ok []) := by
  rw [readAll, if_pos h]

theorem readAll_of_next? (read : String → Except ε α) (inside : c.atEnd = false)
    (h : c.next? separator = some (segment, later)) :
    readAll separator read c =
      match read segment with
      | .error e => some (.error e)
      | .ok x => (readAll separator read later).map (·.map (x :: ·)) := by
  rw [readAll, inside, if_neg Bool.false_ne_true]
  split
  next stuck =>
    rw [h] at stuck
    cases stuck
  next found =>
    rw [h] at found
    cases found
    rfl

/-- What has been read plays no part: a cursor between two characters reads the segments of what is
left, and gets to the end of them. -/
theorem readAll_append (read : String → Except ε α) (before rest : String) :
    readAll separator read ⟨before ++ rest, before.utf8ByteSize⟩ =
      some ((Segments.ofText separator rest).mapM read) := by
  have inside : atEnd ⟨before ++ rest, before.utf8ByteSize⟩ = false := by
    simp [atEnd]
  by_cases more : separator ∈ rest.toList
  · obtain ⟨segment, after, split, free⟩ := Segments.exists_first_segment more
    -- The cursor keeps its whole text. What gets shorter is the part that has not been read.
    have shorter : after.length < rest.length := by
      simp [split]
      omega
    have further := readAll_append read (before ++ (segment ++ String.singleton separator)) after
    rw [String.append_assoc, String.append_assoc] at further
    rw [split] at inside ⊢
    rw [readAll_of_next? read inside (next?_of_separator before after free), further,
      Segments.ofText_append, Segments.ofText_of_not_mem free, List.singleton_append,
      List.mapM_cons]
    cases read segment with
    | error e => rfl
    | ok x => cases (Segments.ofText separator after).mapM read <;> rfl
  · -- The position counts a separator that is not there, and so passes the end.
    have last : atEnd ⟨before ++ rest,
        (before ++ rest).utf8ByteSize + separator.utf8Size⟩ = true := by
      have size := separator.utf8Size_pos
      simp only [atEnd, decide_eq_true_eq]
      omega
    rw [readAll_of_next? read inside (next?_of_not_mem before more), readAll_of_atEnd read last,
      Segments.ofText_of_not_mem more, List.mapM_cons, List.mapM_nil]
    cases read rest <;> rfl
  termination_by rest.length
  decreasing_by exact shorter

theorem readAll_start (read : String → Except ε α) (text : String) :
    readAll separator read (start text) = some ((Segments.ofText separator text).mapM read) := by
  have whole : readAll separator read ⟨"" ++ text, 0⟩ = _ := readAll_append read "" text
  rwa [String.empty_append] at whole

end Cursor

/-! ## Texts joined by a separator -/

theorem Query.parse_eq (text : String) :
    parse text = (Segments.ofText Path.separator text).mapM fun s => Element.parse s.toList := by
  rw [parse, Segments.ofText, List.mapM_map]
  simp only [Function.comp_def, String.toList_ofList]

/-- **A separator joins what is read on either side of it.** -/
theorem separator_joins_readings :
    (∀ a b : String, InTurn (Query.parse a) (Query.parse b) (Query.parse (a ++ ">" ++ b))) ∧
    (∀ a b : String, InTurn (Path.parse a) (Path.parse b) (Path.parse (a ++ ">" ++ b))) ∧
    ∀ text : String,
      Segments.join Path.separator (Segments.ofText Path.separator text) = text ∧
      (Cursor.start text).readAll Path.separator Except.ok =
        some (.ok (Segments.ofText Path.separator text) : Except Percent.Malformed _) ∧
      (∀ (ε α : Type) (read : String → Except ε α),
        (Cursor.start text).readAll Path.separator read =
          some ((Segments.ofText Path.separator text).mapM read)) ∧
      (Cursor.start text).readAll Path.separator (fun s => Element.parse s.toList) =
        some (Query.parse text) ∧
      (Cursor.start text).readAll Path.separator Percent.decode = some (Path.parse text) := by
  have pieces (a b : String) : Segments.ofText Path.separator (a ++ ">" ++ b) =
      Segments.ofText Path.separator a ++ Segments.ofText Path.separator b := by
    rw [String.append_assoc]
    exact Segments.ofText_append a b
  refine ⟨fun a b => ?_, fun a b => ?_, fun text => ⟨?_, ?_, ?_, ?_, ?_⟩⟩
  · rw [Query.parse_eq, Query.parse_eq, Query.parse_eq, pieces]
    exact inTurn_mapM _ _ _
  · rw [Path.parse, Path.parse, Path.parse, pieces]
    exact inTurn_mapM _ _ _
  · exact Segments.join_ofText _ _
  · rw [Cursor.readAll_start, mapM_eq_ok_iff.2 (List.forall₂_same.2 fun _ _ => rfl)]
  · intro ε α read
    exact Cursor.readAll_start read text
  · rw [Query.parse_eq]
    exact Cursor.readAll_start _ text
  · exact Cursor.readAll_start _ text

/-! ## Texts taken for a path or for a query -/

theorem not_mem_of_plain {segment : List Char} (plain : isQueryText segment = false) {c : Char}
    (special : isPatternChar c = true) : c ∉ segment := by
  intro mem
  rw [isQueryText_of_mem mem special] at plain
  cases plain

/-- Without a pattern character a segment is no skip either. -/
theorem Element.parse_of_plain {segment : List Char} (plain : isQueryText segment = false) :
    parse segment = (Percent.decode (String.ofList segment)).map .key := by
  have noSkip : segment.head? ≠ some '\\' := fun first =>
    not_mem_of_plain plain (by decide) (List.mem_of_head? first)
  rw [parse, if_neg noSkip, plain, if_neg Bool.false_ne_true]

/-- A text has a pattern character if one of its segments has. -/
theorem isQueryText_iff_segment (text : List Char) : isQueryText text = true ↔
    ∃ segment ∈ Segments.split Path.separator text, isQueryText segment = true := by
  have separates : isPatternChar Path.separator = false := by decide
  rw [isQueryText, ← Segments.any_split separates text, List.any_eq_true]
  rfl

theorem Query.parse_of_plain {text : String} (plain : isQueryText text.toList = false) :
    parse text = (Path.parse text).map ofPath := by
  rw [parse, Path.parse, Segments.ofText, List.mapM_map]
  refine mapM_eq_map_mapM fun segment h => Element.parse_of_plain ?_
  by_contra special
  rw [Bool.not_eq_false] at special
  have whole := (isQueryText_iff_segment _).2 ⟨segment, h, special⟩
  rw [plain] at whole
  cases whole

theorem Location.map_toQuery_parse (text : String) :
    (parse text).map toQuery = Query.parse text := by
  rw [parse]
  split
  · cases Query.parse text <;> rfl
  next plain =>
    rw [Query.parse_of_plain (Bool.not_eq_true _ ▸ plain)]
    cases Path.parse text <;> rfl

/-- **Telling paths from queries first changes nothing.** -/
theorem classified_text_same_query :
    (∀ text : String,
      (∀ q, (∃ place, Location.parse text = .ok place ∧ place.toQuery = q) ↔
        Query.parse text = .ok q) ∧
      (∀ failure, Location.parse text = .error failure ↔ Query.parse text = .error failure) ∧
      (isQueryText text.toList = true ↔
        ∃ segment ∈ Segments.split Path.separator text.toList, isQueryText segment = true)) ∧
    ∀ (r : Command.Request) (settings : Settings),
      r.query settings = (Query.parse (r.query?.getD settings.defaultQuery)).mapError fun _ =>
        .invalidQuery (r.query?.getD settings.defaultQuery) := by
  constructor
  · intro text
    rw [← Location.map_toQuery_parse]
    refine ⟨fun q => ?_, fun failure => ?_, isQueryText_iff_segment _⟩
    · cases Location.parse text <;> simp [Except.map]
    · cases Location.parse text <;> simp [Except.map]
  · intro r settings
    rw [Command.Request.query, Location.map_toQuery_parse]

end DocQuery
