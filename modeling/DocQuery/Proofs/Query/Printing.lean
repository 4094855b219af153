import DocQuery.Proofs.Path
import DocQuery.Query.Parser

/-!
# Printed queries

Printing forgets markers, and that a value may be something other than a text. What is left is read
back: `Element.reread` says what comes of an element.

* `KeyTest.parse_text`: a printed key test reads back as itself, but for options fewer than two;
* `Element.parse_wrap`: an element is read back from its text, also inside the brackets of a marker;
* `Query.parse_join_wrap`: so is a query from its segments.
-/

namespace DocQuery

/-! ## What is read back -/

/-- One option is a key, and no option at all the empty key. -/
def KeyTest.merged : KeyTest → KeyTest
  | .options [] => .key ""
  | .options [name] => .key name
  | keys => keys

/-- The value as it is read, which is always a text. -/
def Tree.reread (value : Tree) : Tree :=
  .string value.text

/-- A test of one key and of nothing else. -/
def IsPlainTest (keys : KeyTest) (value : Option Tree) (marker : Option Marker) : Prop :=
  ∃ name, keys = .key name ∧ value = none ∧ marker = none

/-- A test as an element is read. A key with nothing else is plain. -/
def Element.ofTest : KeyTest → Option Tree → Option Marker → Element
  | .key name, none, none => .key name
  | keys, value, marker => .pattern (.test keys value marker)

/-- The element that is read when `marker` stands around the text of `e`. -/
def Element.reread (marker : Option Marker) : Element → Element
  | .key name => .ofTest (.key name) none marker
  | .pattern (.literal name) => .ofTest (.key name) none marker
  | .pattern (.test keys value _) => .ofTest keys.merged (value.map Tree.reread) marker
  | .pattern .skip => .skip

/-- The text inside the brackets of a marker, if one is chosen. -/
def Marker.wrap (marker : Option Marker) (text : String) : String :=
  match marker with
  | none => text
  | some marker => String.singleton marker.opening ++ text ++ String.singleton marker.closing

/-! ## Characters -/

theorem not_isEncoded_of_isPatternChar {c : Char} (h : isPatternChar c = true) :
    ¬ Percent.IsEncoded c := by
  simp only [isPatternChar, decide_eq_true_eq] at h
  obtain rfl | rfl | rfl | rfl | rfl | rfl | rfl := h <;> decide

theorem isQueryText_of_mem {c : Char} {text : List Char} (h : c ∈ text)
    (special : isPatternChar c = true) : isQueryText text = true :=
  List.any_eq_true.2 ⟨c, h, special⟩

theorem isQueryText_encode (name : String) : isQueryText (Percent.encode name).toList = false := by
  refine List.any_eq_false.2 fun c h special => ?_
  exact Percent.not_mem_encode (not_isEncoded_of_isPatternChar special) name h

theorem Marker.mem_wrap {marker : Option Marker} {text : String} {c : Char}
    (h : c ∈ (wrap marker text).toList) :
    c ∈ text.toList ∨ ∃ m ∈ marker, c = m.opening ∨ c = m.closing := by
  cases marker with
  | none => exact .inl h
  | some m =>
    simp only [wrap, String.toList_append, String.toList_singleton, List.mem_append,
      List.mem_singleton] at h
    obtain (rfl | inside) | rfl := h
    · exact .inr ⟨m, rfl, .inl rfl⟩
    · exact .inl inside
    · exact .inr ⟨m, rfl, .inr rfl⟩

/-! ## Key tests -/

namespace KeyTest

variable {keys : KeyTest} {c : Char} {names : List String}

theorem not_mem_text_options (special : ¬ Percent.IsEncoded c) (separator : c ≠ '<') :
    c ∉ (text (.options names)).toList := by
  intro h
  obtain rfl | ⟨piece, hp, hc⟩ := Segments.mem_join h
  · exact separator rfl
  · obtain ⟨name, -, rfl⟩ := List.mem_map.1 hp
    exact Percent.not_mem_encode special name hc

/-- Apart from escaped names the text of a key test holds separators of options and symbols. -/
theorem not_mem_text (special : ¬ Percent.IsEncoded c) (other : c ∉ ['<', '|', '"']) :
    c ∉ keys.text.toList := by
  obtain ⟨separator, any, primitive⟩ : c ≠ '<' ∧ c ≠ '|' ∧ c ≠ '"' := by simpa using other
  cases keys with
  | key name => exact Percent.not_mem_encode special name
  | options names => exact not_mem_text_options special separator
  | wildcard => exact mt List.mem_singleton.1 any
  | primitive => exact mt List.mem_singleton.1 primitive

theorem text_merged (keys : KeyTest) : keys.merged.text = keys.text := by
  cases keys with
  | options names =>
    match names with
    | [] => rfl
    | [name] => simp [merged, text, Segments.join]
    | _ :: _ :: _ => rfl
  | _ => rfl

theorem mem_text_of_several (first second : String) :
    '<' ∈ (text (.options (first :: second :: names))).toList := by
  simp [text, Segments.join]

end KeyTest

namespace Pattern

theorem parseKeyTest_of_not_mem {text : List Char} (any : '|' ∉ text) (primitive : '"' ∉ text) :
    parseKeyTest text =
      if text.contains '<' then
        ((Segments.split '<' text).mapM fun option => Percent.decode (String.ofList option)).map
          .options
      else (Percent.decode (String.ofList text)).map .key := by
  have not_any : text ≠ ['|'] := by
    rintro rfl
    exact any (.head _)
  have not_primitive : text ≠ ['"'] := by
    rintro rfl
    exact primitive (.head _)
  rw [parseKeyTest, if_neg not_any, if_neg not_primitive]

theorem parseKeyTest_encode (name : String) :
    parseKeyTest (Percent.encode name).toList = .ok (.key name) := by
  have one : ¬ (Percent.encode name).toList.contains '<' = true := by
    rw [List.contains_iff_mem]
    exact Percent.not_mem_encode (by decide) name
  rw [parseKeyTest_of_not_mem (Percent.not_mem_encode (by decide) name)
    (Percent.not_mem_encode (by decide) name), if_neg one, String.ofList_toList,
    Percent.decode_encode]
  rfl

theorem parseKeyTest_options (first second : String) (names : List String) :
    parseKeyTest (KeyTest.text (.options (first :: second :: names))).toList =
      .ok (.options (first :: second :: names)) := by
  have several : (KeyTest.text (.options (first :: second :: names))).toList.contains '<' = true :=
    List.contains_iff_mem.2 (KeyTest.mem_text_of_several first second)
  rw [parseKeyTest_of_not_mem (KeyTest.not_mem_text_options (by decide) (by decide))
    (KeyTest.not_mem_text_options (by decide) (by decide)), if_pos several,
    KeyTest.text, Segments.mapM_decode_join (by decide) (List.cons_ne_nil _ _)]
  rfl

end Pattern

theorem KeyTest.parse_text (keys : KeyTest) :
    Pattern.parseKeyTest keys.text.toList = .ok keys.merged := by
  cases keys with
  | key name => exact Pattern.parseKeyTest_encode name
  | options names =>
    match names with
    | [] => exact Pattern.parseKeyTest_encode ""
    | [name] =>
      rw [← text_merged]
      exact Pattern.parseKeyTest_encode name
    | first :: second :: names => exact Pattern.parseKeyTest_options first second names
  | wildcard => rfl
  | primitive => rfl

/-! ## Patterns -/

namespace Pattern

variable {keys : KeyTest} {value : Option Tree} {marker mark : Option Marker} {c : Char}

/-- The text of a pattern that is no skip holds no bracket, no backslash and no `>`. -/
theorem not_mem_text (special : ¬ Percent.IsEncoded c) (other : c ∉ ['<', '|', '"', '^']) :
    c ∉ (text (.test keys value mark)).toList := by
  have asked : c ∉ keys.text.toList :=
    KeyTest.not_mem_text special fun h => other (List.mem_append_left ['^'] h)
  cases value with
  | none => exact asked
  | some value =>
    have given := Percent.not_mem_encode special value.text
    have hat : c ≠ '^' := fun h => other (by simp [h])
    simpa [text, asked, given] using hat

theorem split_text : Segments.split '^' (text (.test keys value mark)).toList =
    keys.text.toList :: (value.map fun v => (Percent.encode v.text).toList).toList := by
  have asked : '^' ∉ keys.text.toList :=
    KeyTest.not_mem_text (by decide) (by decide)
  cases value with
  | none => exact Segments.split_eq_singleton asked
  | some value =>
    have given : '^' ∉ (Percent.encode value.text).toList :=
      Percent.not_mem_encode (by decide) _
    have parts : (text (.test keys (some value) mark)).toList =
        keys.text.toList ++ '^' :: (Percent.encode value.text).toList := by
      simp [text]
    rw [parts, Segments.split_append, Segments.split_eq_singleton asked,
      Segments.split_eq_singleton given]
    rfl

theorem parseValue_encode (value : Option Tree) :
    parseValue (value.map fun v => (Percent.encode v.text).toList) =
      .ok (value.map Tree.reread) := by
  cases value with
  | none => rfl
  | some value =>
    rw [Option.map_some, parseValue, String.ofList_toList, Percent.decode_encode]
    rfl

theorem unwrap?_eq_none {m : Marker} {text : List Char} (h : m.opening ∉ text) :
    unwrap? m text = none := by
  cases text with
  | nil => rfl
  | cons c text =>
    have other : c ≠ m.opening := by
      rintro rfl
      exact h (.head _)
    exact if_neg (other ·.1)

theorem unwrap?_wrap {m : Marker} {text : String} (opening : m.opening ∉ text.toList)
    (closing : m.closing ∉ text.toList) :
    unwrap? m (Marker.wrap (some m) text).toList = some text.toList := by
  simp [Marker.wrap, unwrap?, opening, closing]

/-- The brackets around a text are found if there is none inside. -/
theorem splitMarker_wrap {text : String}
    (free : ∀ m : Marker, m.opening ∉ text.toList ∧ m.closing ∉ text.toList) :
    splitMarker (Marker.wrap marker text).toList = (marker, text.toList) := by
  match marker with
  | none =>
    rw [Marker.wrap, splitMarker, unwrap?_eq_none (free .bracket).1,
      unwrap?_eq_none (free .curly).1]
  | some .bracket => rw [splitMarker, unwrap?_wrap (free .bracket).1 (free .bracket).2]
  | some .curly =>
    have other : Marker.bracket.opening ∉ (Marker.wrap (some .curly) text).toList := by
      intro h
      obtain inside | ⟨m, hm, bracket⟩ := Marker.mem_wrap h
      · exact (free .bracket).1 inside
      · obtain rfl := Option.some.inj hm
        revert bracket
        decide
    rw [splitMarker, unwrap?_eq_none other, unwrap?_wrap (free .curly).1 (free .curly).2]

theorem parseChars_wrap (more : ¬ IsPlainTest keys.merged (value.map Tree.reread) marker) :
    parseChars (Marker.wrap marker (text (.test keys value mark))).toList =
      .ok (.test keys.merged (value.map Tree.reread) marker) := by
  have free (m : Marker) : m.opening ∉ (text (.test keys value mark)).toList ∧
      m.closing ∉ (text (.test keys value mark)).toList := by
    cases m <;> constructor <;> exact not_mem_text (by decide) (by decide)
  have noSkip : keys.text.toList ≠ ['\\'] := by
    intro h
    have first : '\\' ∈ keys.text.toList := h ▸ .head _
    exact KeyTest.not_mem_text (by decide) (by decide) first
  have asked : (value.map fun v => (Percent.encode v.text).toList).toList[0]? =
      value.map fun v => (Percent.encode v.text).toList := by
    cases value <;> rfl
  rw [parseChars, splitMarker_wrap free]
  simp only [split_text, List.headD_cons, if_neg noSkip, List.getElem?_cons_succ, asked,
    parseValue_encode, KeyTest.parse_text, bind, Except.bind]
  split
  next name hk hv => exact absurd ⟨name, hk, hv, rfl⟩ more
  next => rfl

end Pattern

/-! ## Elements -/

namespace Element

variable {keys : KeyTest} {value : Option Tree} {marker mark : Option Marker}

theorem ofTest_eq_pattern (more : ¬ IsPlainTest keys value marker) :
    ofTest keys value marker = .pattern (.test keys value marker) := by
  rw [ofTest.eq_def]
  split
  next name => exact absurd ⟨name, rfl, rfl, rfl⟩ more
  next => rfl

/-- A printed test that is more than a plain key has the look of a pattern. -/
theorem isQueryText_wrap (more : ¬ IsPlainTest keys.merged (value.map Tree.reread) marker) :
    isQueryText (Marker.wrap marker (Pattern.text (.test keys value mark))).toList = true := by
  match marker with
  | some m =>
    have opened : m.opening ∈
        (Marker.wrap (some m) (Pattern.text (.test keys value mark))).toList := by
      simp [Marker.wrap]
    exact isQueryText_of_mem opened (by cases m <;> decide)
  | none =>
    match value with
    | some value =>
      have hat : '^' ∈ (Pattern.text (.test keys (some value) mark)).toList := by
        simp [Pattern.text]
      exact isQueryText_of_mem hat (by decide)
    | none =>
      match keys with
      | .key name => exact absurd ⟨name, rfl, rfl, rfl⟩ more
      | .options [] => exact absurd ⟨"", rfl, rfl, rfl⟩ more
      | .options [name] => exact absurd ⟨name, rfl, rfl, rfl⟩ more
      | .options (first :: second :: names) =>
        exact isQueryText_of_mem (KeyTest.mem_text_of_several first second) (by decide)
      | .wildcard =>
        have any : '|' ∈ KeyTest.wildcard.text.toList := List.mem_singleton.2 rfl
        exact isQueryText_of_mem any (by decide)
      | .primitive =>
        have any : '"' ∈ KeyTest.primitive.text.toList := List.mem_singleton.2 rfl
        exact isQueryText_of_mem any (by decide)

theorem parse_encode (name : String) : parse (Percent.encode name).toList = .ok (.key name) := by
  have noSkip : (Percent.encode name).toList.head? ≠ some '\\' := fun h =>
    Percent.not_mem_encode (by decide) name (List.mem_of_head? h)
  rw [parse, if_neg noSkip, isQueryText_encode, if_neg Bool.false_ne_true, String.ofList_toList,
    Percent.decode_encode]
  rfl

theorem parse_wrap_test (keys : KeyTest) (value : Option Tree) (mark : Option Marker) :
    parse (Marker.wrap marker (Pattern.text (.test keys value mark))).toList =
      .ok (ofTest keys.merged (value.map Tree.reread) marker) := by
  by_cases plain : IsPlainTest keys.merged (value.map Tree.reread) marker
  · obtain ⟨name, hk, hv, rfl⟩ := plain
    obtain rfl := Option.map_eq_none_iff.1 hv
    have same : Pattern.text (.test keys none mark) = Percent.encode name := by
      rw [Pattern.text, ← KeyTest.text_merged, hk, KeyTest.text]
    rw [Marker.wrap, same, parse_encode, hk]
    rfl
  · have noSkip : (Marker.wrap marker (Pattern.text (.test keys value mark))).toList.head? ≠
        some '\\' := by
      intro h
      obtain inside | ⟨m, -, bracket⟩ := Marker.mem_wrap (List.mem_of_head? h)
      · exact Pattern.not_mem_text (by decide) (by decide) inside
      · cases m <;> revert bracket <;> decide
    rw [parse, if_neg noSkip, isQueryText_wrap plain, if_pos rfl, Pattern.parseChars_wrap plain,
      ofTest_eq_pattern plain]
    rfl

/-- **An element is read back from its text**, with the marker whose brackets stand around it. -/
theorem parse_wrap (e : Element) :
    parse (Marker.wrap marker e.text).toList = .ok (e.reread marker) := by
  match e with
  | .key name => exact parse_wrap_test (.key name) none none
  | .pattern (.literal name) => exact parse_wrap_test (.key name) none none
  | .pattern (.test keys value mark) => exact parse_wrap_test keys value mark
  | .pattern .skip => cases marker with
    | none => rfl
    | some m => cases m <;> rfl

theorem separator_not_mem_text (e : Element) : Path.separator ∉ e.text.toList := by
  match e with
  | .key name => exact Percent.not_mem_encode (by decide) name
  | .pattern (.literal name) => exact Percent.not_mem_encode (by decide) name
  | .pattern (.test keys value mark) =>
    exact Pattern.not_mem_text (by decide) (by decide)
  | .pattern .skip => exact mt List.mem_singleton.1 (by decide)

theorem separator_not_mem_wrap (e : Element) :
    Path.separator ∉ (Marker.wrap marker e.text).toList := by
  intro h
  obtain inside | ⟨m, -, bracket⟩ := Marker.mem_wrap h
  · exact e.separator_not_mem_text inside
  · cases m <;> revert bracket <;> decide

/-! ### The text of what is read -/

theorem text_ofTest : (ofTest keys value marker).text = Pattern.text (.test keys value marker) := by
  rw [ofTest.eq_def]
  split <;> rfl

theorem text_reread (e : Element) : (e.reread none).text = e.text := by
  match e with
  | .key name => rfl
  | .pattern (.literal name) => rfl
  | .pattern .skip => rfl
  | .pattern (.test keys none mark) =>
    rw [reread, text_ofTest]
    exact keys.text_merged
  | .pattern (.test keys (some value) mark) =>
    rw [reread, text_ofTest, Option.map_some, Pattern.text, keys.text_merged]
    rfl

end Element

/-! ## Queries -/

namespace Query

variable {q : Query} {elements : List (Element × Option Marker)}

/-- **A query is read back from its segments**, each with the marker that stands around it. -/
theorem parse_join_wrap (some : elements ≠ []) :
    parse (Segments.join Path.separator (elements.map fun p => Marker.wrap p.2 p.1.text)) =
      .ok (elements.map fun p => p.1.reread p.2) := by
  have free : ∀ piece ∈ elements.map fun p => Marker.wrap p.2 p.1.text,
      Path.separator ∉ piece.toList := by
    intro piece h
    obtain ⟨p, -, rfl⟩ := List.mem_map.1 h
    exact p.1.separator_not_mem_wrap
  rw [parse, Segments.split_join free (by simpa using some), mapM_eq_ok_iff, List.map_map,
    List.forall₂_map_left_iff, List.forall₂_map_right_iff, List.forall₂_same]
  intro p _
  exact p.1.parse_wrap

theorem parse_text_of_ne_nil (some : q ≠ []) : parse q.text = .ok (q.map (·.reread none)) := by
  have more : q.map (fun e => (e, (none : Option Marker))) ≠ [] := by simpa using some
  have read := parse_join_wrap more
  rwa [List.map_map, List.map_map] at read

theorem text_map_reread (q : Query) : text (q.map (·.reread none)) = q.text := by
  simp only [text, List.map_map, Function.comp_def, Element.text_reread]

end Query

end DocQuery
