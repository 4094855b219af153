import DocQuery.Command.Run
import DocQuery.Proofs.Composition
import DocQuery.Proofs.Path
import DocQuery.Proofs.Query.Printing
import DocQuery.Proofs.Walk.Stopping

/-!
# Printed places

The text of a path has no pattern character, and all its keys are read back from it. So it is taken
for a path wherever a text may be a path or a query (`Location.parse_text`), and a place that was
printed can be asked for by what was printed (`printed_path_selects_itself`).
-/

namespace DocQuery

variable {path : Path} {root : Tree} {m : Match}

namespace Path

theorem isQueryText_text (path : Path) : isQueryText path.text.toList = false := by
  apply List.any_eq_false.2
  intro c h special
  -- The separator is no pattern character, and all other characters stand in an encoded key.
  obtain rfl | ⟨piece, hp, hc⟩ := Segments.mem_join h
  · revert special
    decide
  · obtain ⟨key, -, rfl⟩ := List.mem_map.1 hp
    exact Percent.not_mem_encode (not_isEncoded_of_isPatternChar special) key hc

end Path

theorem Location.parse_text (keyed : path ≠ []) : parse path.text = .ok (.path path) := by
  rw [parse, Path.isQueryText_text, if_neg Bool.false_ne_true, Path.parse_text keyed]
  rfl

theorem Tree.resolves_of_found (found : (∃ q, m ∈ root.select q) ∨ m ∈ root.descendants) :
    m.path.resolve? root = some m.node := by
  obtain ⟨q, selected⟩ | visited := found
  · exact (mem_select_iff.1 selected).1
  · rw [descendants_eq_preorder] at visited
    exact (mem_preorder_iff.1 visited).2

namespace Command.Request

variable {r : Request} {settings : Settings}

theorem query_of_path (keyed : path ≠ []) (asked : r.query? = some path.text) :
    r.query settings = .ok (.ofPath path) := by
  rw [query, asked, Option.getD_some, Location.parse_text keyed]
  rfl

/-- A request that names a query and gets one match gives it, whether it asks for the first match or
for all. -/
theorem found_of_query {q : Query} {text : String} (asked : r.query? = some text)
    (read : r.query settings = .ok q) (one : root.select q = [m]) :
    r.found settings root = .ok [m] := by
  -- A request for everything names no query.
  have named : r.all = false := by
    by_contra all
    rw [Bool.not_eq_false] at all
    rw [query?, if_pos all] at asked
    cases asked
  have first : root.selectFirst? q = some m := by
    rw [Tree.selectFirst?_eq_head?, one, List.head?_cons]
  rw [found, named, if_neg Bool.false_ne_true, read]
  change Except.ok (if r.first then (root.selectFirst? q).toList else root.select q) = _
  rw [first, one]
  cases r.first <;> rfl

end Command.Request

/-- **A printed path is a query for itself.** Take any place below the root that a query selects or
the full walk visits. The text of its path is recognised as that path, and what the path selects in
the same tree is that place alone. So a request that names the text as its query finds it. -/
theorem printed_path_selects_itself (root : Tree) (m : Match)
    (found : (∃ q, m ∈ root.select q) ∨ m ∈ root.descendants) (below : m.path ≠ []) :
    Location.parse m.path.text = .ok (.path m.path) ∧
    root.select (Location.path m.path).toQuery = [m] ∧
    ∀ (r : Command.Request) (settings : Settings), r.query? = some m.path.text →
      r.query settings = .ok (Location.path m.path).toQuery ∧ r.found settings root = .ok [m] := by
  have resolved := Tree.resolves_of_found found
  have one : root.select (Query.ofPath m.path) = [m] := by
    rw [Query.select_ofPath, resolved]
    rfl
  refine ⟨Location.parse_text below, one, ?_⟩
  intro r settings asked
  have read : r.query settings = .ok (Query.ofPath m.path) :=
    Command.Request.query_of_path below asked
  exact ⟨read, Command.Request.found_of_query asked read one⟩

/-- The keys hold a separator and other grammar, a percent sign, and a letter that is not ASCII. -/
theorem printed_path_selects_itself_escaped :
    ⟨["a>\\%", "é", "0"], .null⟩ ∈
        (Tree.object [("a>\\%", .object [("é", .array [.null])])]).descendants ∧
      ["a>\\%", "é", "0"] ≠ [] ∧
      Location.parse "a%3E%5C%25>%C3%A9>0" = .ok (.path ["a>\\%", "é", "0"]) ∧
      (Tree.object [("a>\\%", .object [("é", .array [.null])])]).select
        (Query.ofPath ["a>\\%", "é", "0"]) = [⟨["a>\\%", "é", "0"], .null⟩] := by
  have visited : ⟨["a>\\%", "é", "0"], .null⟩ ∈
      (Tree.object [("a>\\%", .object [("é", .array [.null])])]).descendants := by
    rw [Tree.descendants_eq_preorder]
    exact Tree.mem_preorder_iff.2 ⟨List.cons_ne_nil _ _, rfl⟩
  have keyed : ["a>\\%", "é", "0"] ≠ [] := List.cons_ne_nil _ _
  obtain ⟨read, one, -⟩ := printed_path_selects_itself _ _ (.inr visited) keyed
  have text : Path.text ["a>\\%", "é", "0"] = "a%3E%5C%25>%C3%A9>0" := by decide
  rw [text] at read
  exact ⟨visited, keyed, read, one⟩

end DocQuery
