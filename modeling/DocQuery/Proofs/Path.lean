import DocQuery.Path
import DocQuery.Proofs.InTurn
import DocQuery.Proofs.Text.Percent

/-!
# Paths as text

The text of a path is its keys, escaped, with separators between them. No separator stands in an
escaped key, so the text is cut where it was joined.

* `Segments.length_split`, `Segments.mapM_decode_join`: the pieces of a text, and what is read from
  names that were joined;
* `Path.parse_text`, `Path.text_eq_text_iff`: reading undoes printing, and only the empty path has
  the text of another;
* `path_text_faithful`: both, with what is known of any text that can be read.
-/

namespace DocQuery

/-! ## Pieces -/

namespace Segments

theorem length_split (separator : Char) (text : List Char) :
    (split separator text).length = text.count separator + 1 := by
  induction text with
  | nil => rfl
  | cons c text ih =>
    rw [split]
    split
    next same => rw [List.length_cons, ih, same, List.count_cons_self]
    next other =>
      rw [List.count_cons_of_ne other]
      split
      next none => simp [none] at ih
      next pieces =>
        rw [pieces] at ih
        exact ih

theorem mem_join {separator c : Char} {pieces : List String}
    (h : c ∈ (join separator pieces).toList) :
    c = separator ∨ ∃ piece ∈ pieces, c ∈ piece.toList := by
  rw [join, String.toList_ofList] at h
  induction pieces with
  | nil => cases h
  | cons piece pieces ih =>
    cases pieces with
    | nil => exact .inr ⟨piece, .head _, by simpa using h⟩
    | cons next pieces =>
      rw [List.map_cons, List.map_cons, List.intercalate_cons_cons, List.append_assoc,
        List.mem_append, List.mem_append, List.mem_singleton] at h
      obtain here | rfl | later := h
      · exact .inr ⟨piece, .head _, here⟩
      · exact .inl rfl
      · obtain at_separator | ⟨p, hp, hc⟩ := ih later
        · exact .inl at_separator
        · exact .inr ⟨p, .tail _ hp, hc⟩

/-- Escaped names are read back from between separators. -/
theorem mapM_decode_join {separator : Char} {names : List String}
    (special : ¬ Percent.IsEncoded separator) (some : names ≠ []) :
    (split separator (join separator (names.map Percent.encode)).toList).mapM
      (fun piece => Percent.decode (String.ofList piece)) = .ok names := by
  have free : ∀ piece ∈ names.map Percent.encode, separator ∉ piece.toList := by
    intro piece h
    obtain ⟨name, -, rfl⟩ := List.mem_map.1 h
    exact Percent.not_mem_encode special name
  rw [split_join free (by simpa using some), mapM_eq_ok_iff, List.map_map,
    List.forall₂_map_left_iff, List.forall₂_same]
  intro name _
  rw [Function.comp_apply, String.ofList_toList, Percent.decode_encode]

end Segments

/-! ## Paths -/

namespace Path

variable {path other : Path} {text : String}

/-- A path of at least one key is read back from its text. -/
theorem parse_text (keyed : path ≠ []) : parse path.text = .ok path := by
  rw [parse, Segments.ofText, List.mapM_map]
  exact Segments.mapM_decode_join (by decide) keyed

theorem length_of_parse (read : parse text = .ok path) :
    path.length = text.toList.count separator + 1 := by
  have pieces := mapM_eq_ok_iff.1 read
  rw [← pieces.length_eq, Segments.ofText, List.length_map, Segments.length_split]

theorem ne_nil_of_parse (read : parse text = .ok path) : path ≠ [] := by
  have length := length_of_parse read
  rintro rfl
  cases length

theorem text_nil : Path.text [] = Path.text [""] := by
  decide

theorem eq_of_text_eq (keyed : path ≠ []) (keyed' : other ≠ []) (same : path.text = other.text) :
    path = other := by
  have read := parse_text keyed
  rw [same, parse_text keyed'] at read
  exact (Except.ok.inj read).symm

/-- The empty path has the text of the path of one empty key. -/
theorem text_eq_text_nil_iff : path.text = Path.text [] ↔ path = [] ∨ path = [""] := by
  constructor
  · intro same
    by_cases keyed : path = []
    · exact .inl keyed
    · exact .inr (eq_of_text_eq keyed (List.cons_ne_nil _ _) (same.trans text_nil))
  · rintro (rfl | rfl)
    · rfl
    · exact text_nil.symm

theorem text_eq_text_iff : path.text = other.text ↔
    path = other ∨ path = [] ∧ other = [""] ∨ path = [""] ∧ other = [] := by
  by_cases keyed : path = []
  · subst keyed
    rw [eq_comm, text_eq_text_nil_iff]
    simp [eq_comm]
  · by_cases keyed' : other = []
    · subst keyed'
      rw [text_eq_text_nil_iff]
      simp [keyed]
    · constructor
      · intro same
        exact .inl (eq_of_text_eq keyed keyed' same)
      · rintro (rfl | ⟨none, -⟩ | ⟨-, none⟩)
        · rfl
        · exact absurd none keyed
        · exact absurd none keyed'

end Path

/-- **The text of a path is faithful.** A path of at least one key is read back from it. Every text
that can be read has a key for each of its segments, and what is read from it is read again from its
own text. Two paths share their text only if one is empty and the other has just the empty key. -/
theorem path_text_faithful :
    (∀ path : Path, path ≠ [] → Path.parse path.text = .ok path) ∧
    (∀ (text : String) (path : Path), Path.parse text = .ok path →
      path.length = text.toList.count Path.separator + 1 ∧ Path.parse path.text = .ok path) ∧
    ∀ path other : Path, path.text = other.text ↔
      path = other ∨ path = [] ∧ other = [""] ∨ path = [""] ∧ other = [] := by
  refine ⟨fun _ keyed => Path.parse_text keyed, fun text path read => ?_,
    fun _ _ => Path.text_eq_text_iff⟩
  exact ⟨Path.length_of_parse read, Path.parse_text (Path.ne_nil_of_parse read)⟩

theorem path_text_faithful_empty_keys :
    (["", "a>b", ""] : Path) ≠ [] ∧ Path.parse ">a%3Eb>" = .ok ["", "a>b", ""] ∧
      (["", "a>b", ""] : Path).length = ">a%3Eb>".toList.count Path.separator + 1 := by
  have keyed : (["", "a>b", ""] : Path) ≠ [] := List.cons_ne_nil _ _
  have text : Path.text ["", "a>b", ""] = ">a%3Eb>" := by decide
  obtain ⟨printed, read, -⟩ := path_text_faithful
  have whole := printed _ keyed
  rw [text] at whole
  exact ⟨keyed, whole, (read _ _ whole).1⟩

end DocQuery
