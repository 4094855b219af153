import DocQuery.Proofs.Agreement
import DocQuery.Proofs.Query.Printing

/-!
# Queries read back from their text

* `parse_marked_segments`: where printing forgets nothing, reading undoes it, and brackets put
  around the segments set the markers;
* `parse_printed`: the text of any query is read back as a query with that text. If no mark, value
  or option list is lost on the way, the two select the same places of every tree and accept the
  same paths.
-/

namespace DocQuery

/-! ## Elements whose text says all -/

/-- A plain key, a skip, or a pattern without a marker that asks for a text at most. A pattern of
one key has a value, and options are more than one. -/
inductive Element.Canonical : Element → Prop
  | key (name : String) : Canonical (.key name)
  | skip : Canonical .skip
  | any (value : Option String) : Canonical (.pattern (.test .wildcard (value.map .string) none))
  | primitive (value : Option String) :
      Canonical (.pattern (.test .primitive (value.map .string) none))
  | options (names : List String) (value : Option String) (several : 2 ≤ names.length) :
      Canonical (.pattern (.test (.options names) (value.map .string) none))
  | valued (name value : String) :
    Canonical (.pattern (.test (.key name) (some (.string value)) none))

/-- The element with a marker set, if one is chosen. A plain key becomes a pattern to carry it. -/
def Element.marked (marker : Option Marker) (e : Element) : Element :=
  match marker, e with
  | none, e => e
  | some marker, .key name => .pattern ((Pattern.literal name).withMarker marker)
  | some marker, .pattern p => .pattern (p.withMarker marker)

theorem Tree.map_reread_string (value : Option String) :
    (value.map Tree.string).map Tree.reread = value.map Tree.string := by
  cases value <;> rfl

theorem KeyTest.merged_of_several {names : List String} (several : 2 ≤ names.length) :
    merged (.options names) = .options names := by
  match names with
  | _ :: _ :: _ => rfl

theorem Element.Canonical.reread_eq {e : Element} (h : e.Canonical) (marker : Option Marker) :
    e.reread marker = e.marked marker := by
  cases h with
  | key | skip | valued => cases marker <;> rfl
  | any value | primitive value =>
    rw [reread, Tree.map_reread_string]
    cases marker <;> rfl
  | options names value several =>
    rw [reread, Tree.map_reread_string, KeyTest.merged_of_several several]
    cases marker <;> rfl

/-- **Reading inverts printing, markers included.** -/
theorem parse_marked_segments (q : Query) (some : q ≠ []) (canonical : ∀ e ∈ q, e.Canonical) :
    (∀ markers : List (Option Marker), markers.length = q.length →
      Query.parse (Segments.join Path.separator
          (List.zipWith (fun e marker => Marker.wrap marker e.text) q markers)) =
        .ok (List.zipWith (fun e marker => e.marked marker) q markers)) ∧
    Query.parse q.text = .ok q := by
  constructor
  · intro markers same
    have more : q.zip markers ≠ [] := by
      intro none
      have len := congrArg List.length none
      rw [List.length_zip, same, Nat.min_self] at len
      exact some (List.length_eq_zero_iff.1 len)
    have read := Query.parse_join_wrap more
    have set : (q.zip markers).map (fun p => p.1.reread p.2) =
        (q.zip markers).map fun p => p.1.marked p.2 :=
      List.map_congr_left fun p h => (canonical p.1 (List.of_mem_zip h).1).reread_eq p.2
    rwa [set, List.map_zip_eq_zipWith, List.map_zip_eq_zipWith] at read
  · have same : q.map (·.reread none) = q :=
      (List.map_congr_left fun e h => (canonical e h).reread_eq none).trans (List.map_id q)
    exact (Query.parse_text_of_ne_nil some).trans (congrArg Except.ok same)

theorem parse_marked_key_and_skip :
    ([.key "a>b", .skip, .pattern (.test .wildcard (some (.string "")) none)] : Query) ≠ [] ∧
      (∀ e ∈ ([.key "a>b", .skip, .pattern (.test .wildcard (some (.string "")) none)] : Query),
        e.Canonical) ∧
      Query.parse "\x7ba%3Eb\x7d>[\\]>|^" = .ok [.pattern (.test (.key "a>b") none (some .curly)),
        .skip, .pattern (.test .wildcard (some (.string "")) none)] := by
  have some : ([.key "a>b", .skip,
      .pattern (.test .wildcard (some (.string "")) none)] : Query) ≠ [] := List.cons_ne_nil _ _
  have canonical : ∀ e ∈ ([.key "a>b", .skip,
      .pattern (.test .wildcard (Option.some (.string "")) none)] : Query), e.Canonical := by
    simpa using ⟨.key _, .skip, .any (Option.some "")⟩
  have read := (parse_marked_segments _ some canonical).1
    [Option.some .curly, Option.some .bracket, none] rfl
  exact ⟨some, canonical, read⟩

/-! ## Elements whose text says what they take -/

/-- Two elements take the same keys, of trees and of paths. -/
structure Element.Alike (e e' : Element) : Prop where
  isSkip : e.isSkip = e'.isSkip
  matchesKey : ∀ key, e.matchesKey key = e'.matchesKey key
  keysAt : ∀ node, e.keysAt node = e'.keysAt node

/-- What an element asks for can be written: its value is a text, and options are at least one. -/
structure Element.IsWritable (e : Element) : Prop where
  texts : ∀ value, e.value? = some value → ∃ text, value = .string text
  options : ∀ value marker, e ≠ .pattern (.test (.options []) value marker)

namespace Element

variable {e : Element} {keys : KeyTest} {value : Option Tree} {marker : Option Marker}

theorem returns_ofTest : (ofTest keys value none).returns = false := by
  rw [ofTest.eq_def]
  split <;> rfl

theorem returns_reread (e : Element) : (e.reread none).returns = false := by
  match e with
  | .key name => rfl
  | .pattern (.literal name) => rfl
  | .pattern .skip => rfl
  | .pattern (.test keys value mark) => exact returns_ofTest

/-- Neither a marker nor the form of a single key shows in what is taken. -/
theorem ofTest_merged_alike (some : keys ≠ .options []) :
    (ofTest keys.merged value none).Alike (.pattern (.test keys value marker)) := by
  match keys with
  | .key name => cases value <;> exact ⟨rfl, fun _ => rfl, fun _ => rfl⟩
  | .options [] => exact absurd rfl some
  | .options [name] =>
    have one (key : String) : (name == key) = [name].contains key := by
      rw [Bool.eq_iff_iff, List.contains_iff_mem, List.mem_singleton, beq_iff_eq, eq_comm]
    cases value <;> exact ⟨rfl, one, fun _ => rfl⟩
  | .options (first :: second :: names) => exact ⟨rfl, fun _ => rfl, fun _ => rfl⟩
  | .wildcard => exact ⟨rfl, fun _ => rfl, fun _ => rfl⟩
  | .primitive => exact ⟨rfl, fun _ => rfl, fun _ => rfl⟩

theorem IsWritable.reread_alike (h : e.IsWritable) : (e.reread none).Alike e := by
  match e with
  | .key name => exact ⟨rfl, fun _ => rfl, fun _ => rfl⟩
  | .pattern (.literal name) => exact ⟨rfl, fun _ => rfl, fun _ => rfl⟩
  | .pattern .skip => exact ⟨rfl, fun _ => rfl, fun _ => rfl⟩
  | .pattern (.test keys value mark) =>
    have same : value.map Tree.reread = value := by
      cases value with
      | none => rfl
      | some value =>
        obtain ⟨text, rfl⟩ := h.texts value rfl
        rfl
    have options : keys ≠ .options [] := by
      rintro rfl
      exact h.options value mark rfl
    rw [reread, same]
    exact ofTest_merged_alike options

end Element

namespace Query

variable {q q' : Query} {skipping : Bool}

theorem matchesKeys_alike (h : List.Forall₂ Element.Alike q q') (keys : List String) :
    q.matchesKeys skipping keys = q'.matchesKeys skipping keys := by
  induction h generalizing skipping keys with
  | nil => rfl
  | cons first _ ih => simp only [matchesKeys, first.isSkip, first.matchesKey, ih]

theorem returns_eq_replicate (unmarked : ∀ e ∈ q, e.returns = false) :
    q.returns = List.replicate (q.steps false).length false := by
  refine List.map_eq_replicate_iff.2 fun step hs => ?_
  exact unmarked _ (mem_of_mem_steps hs)

theorem select_alike (h : List.Forall₂ Element.Alike q q') (unmarked : ∀ e ∈ q, e.returns = false)
    (unmarked' : ∀ e ∈ q', e.returns = false) (root : Tree) : root.select q = root.select q' := by
  have steps := forall₂_steps (fun _ _ alike => alike.isSkip) h false
  have marks : q.returns.dropLast = q'.returns.dropLast := by
    rw [returns_eq_replicate unmarked, returns_eq_replicate unmarked', steps.length_eq]
  rw [Tree.select_eq_reports, Tree.select_eq_reports]
  exact Walk.reports_congr (steps.imp fun _ _ same => ⟨same.1, same.2.keysAt⟩) marks

end Query

/-- **Every printed query can be read, and prints the same again.** If there is an element, no
return mark, and nothing asked for but texts and some option, the query that is read selects what
the printed one does, in the same order, and accepts the same paths. -/
theorem parse_printed (q : Query) : ∃ q', Query.parse q.text = .ok q' ∧ q'.text = q.text ∧
    (q ≠ [] → (∀ e ∈ q, e.returns = false ∧ e.IsWritable) →
      (∀ root : Tree, root.select q' = root.select q) ∧
        ∀ path, q'.matchesPath path = q.matchesPath path) := by
  by_cases some : q = []
  · subst some
    have same : Query.text [.key ""] = Query.text [] := by decide
    have read : Query.parse (Query.text [.key ""]) = .ok [.key ""] :=
      Query.parse_text_of_ne_nil (List.cons_ne_nil _ _)
    exact ⟨[.key ""], same ▸ read, same, (absurd rfl ·)⟩
  · refine ⟨_, Query.parse_text_of_ne_nil some, Query.text_map_reread q, fun _ written => ?_⟩
    have alike : List.Forall₂ Element.Alike (q.map (·.reread none)) q := by
      rw [List.forall₂_map_left_iff, List.forall₂_same]
      exact fun e he => (written e he).2.reread_alike
    constructor
    · refine Query.select_alike alike (fun e he => ?_) fun e he => (written e he).1
      obtain ⟨e, -, rfl⟩ := List.mem_map.1 he
      exact e.returns_reread
    · exact fun path => Query.matchesKeys_alike alike path

theorem parse_printed_one_option :
    (∀ e ∈ ([.pattern (.literal "a"), .pattern (.test (.options ["b"]) (some (.string "1")) none)] :
      Query), e.returns = false ∧ e.IsWritable) ∧
    ∃ q', Query.parse (Query.text [.pattern (.literal "a"),
        .pattern (.test (.options ["b"]) (some (.string "1")) none)]) = .ok q' ∧
      ∀ root : Tree, root.select q' = root.select [.pattern (.literal "a"),
        .pattern (.test (.options ["b"]) (some (.string "1")) none)] := by
  have written : ∀ e ∈ ([.pattern (.literal "a"),
      .pattern (.test (.options ["b"]) (some (.string "1")) none)] : Query),
      e.returns = false ∧ e.IsWritable := by
    have literal : (Element.pattern (.literal "a")).IsWritable := ⟨nofun, nofun⟩
    have option : (Element.pattern (.test (.options ["b"]) (some (.string "1")) none)).IsWritable :=
      ⟨fun _ h => ⟨"1", (Option.some.inj h).symm⟩, nofun⟩
    exact List.forall_mem_cons.2 ⟨⟨rfl, literal⟩, List.forall_mem_singleton.2 ⟨rfl, option⟩⟩
  obtain ⟨q', read, -, selects⟩ := parse_printed [.pattern (.literal "a"),
    .pattern (.test (.options ["b"]) (some (.string "1")) none)]
  exact ⟨written, q', read, (selects (List.cons_ne_nil _ _) written).1⟩

end DocQuery
