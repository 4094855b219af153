import DocQuery.Json.Value
import DocQuery.Path
import DocQuery.Proofs.Entries
import DocQuery.Yaml.Value

/-!
# From YAML to documents

Keys that YAML tells apart can have one text: the number 1, the text `1`, a tagged 1, or a sequence
and a text that looks like it. In a document they are one key.

* `toPairs_eq_map`: the keys of a mapping become texts one by one;
* `child?_toTree`, `resolve?_toTree`: what is found in the document, also below tags, is what becomes
  of the value that stands there;
* `InJson.agrees`: a value that JSON can say too becomes the same document over JSON;
* `mapping_merges_equal_texts`: what a mapping becomes, wherever it stands.
-/

namespace DocQuery

theorem Json.Value.toEntries_eq_map (entries : List (String × Json.Value)) :
    toEntries entries = entries.map (Prod.map id toTree) := by
  induction entries with
  | nil => rfl
  | cons entry entries ih => rw [toEntries, ih]; rfl

theorem Json.Value.toTree_object_ofPairs (pairs : List (String × Json.Value)) :
    (object (Entries.ofPairs pairs)).toTree = .object (Entries.ofPairs (toEntries pairs)) := by
  rw [toTree, toEntries_eq_map, toEntries_eq_map, Entries.ofPairs_map]

namespace Yaml.Value

/-- The value without the tags around it. -/
def untagged : Value → Value
  | .tagged _ value => untagged value
  | value => value

/-- The entries under the texts that their keys become. -/
def named (entries : List (Value × Value)) : List (String × Value) :=
  entries.map fun entry => (entry.1.toTree.text, entry.2)

/-- The value that the document has under a key: an item, or the value of the last entry whose key
has that text. -/
def child? : Value → String → Option Value
  | .sequence items, key => (Index.ofKey? key).bind (items[·]?)
  | .mapping entries, key => (named entries).reverse.lookup key
  | .tagged _ value, key => child? value key
  | _, _ => none

/-- The value that `path` leads to. -/
def resolve? (path : Path) (v : Value) : Option Value :=
  path.foldlM child? v

theorem toTree_untagged (v : Value) : v.untagged.toTree = v.toTree := by
  cases v with
  | tagged tag value => exact toTree_untagged value
  | _ => rfl

theorem toTrees_eq_map (items : List Value) : toTrees items = items.map toTree := by
  induction items with
  | nil => rfl
  | cons item items ih => rw [toTrees, List.map_cons, ih]

theorem toPairs_eq_map (entries : List (Value × Value)) :
    toPairs entries = (named entries).map (Prod.map id toTree) := by
  induction entries with
  | nil => rfl
  | cons entry entries ih => rw [toPairs, ih]; rfl

/-! ## Where values stand in the document -/

theorem child?_toTree (v : Value) (key : String) :
    v.toTree.child? key = (v.child? key).map toTree := by
  cases v with
  | sequence items =>
    simp only [toTree, Tree.child?, child?, toTrees_eq_map, List.getElem?_map, Option.map_bind,
      Function.comp_def]
  | mapping entries =>
    rw [toTree, Tree.child?, Entries.lookup_ofPairs, toPairs_eq_map, ← List.map_reverse]
    exact Entries.lookup_map toTree _ key
  | tagged tag value => exact child?_toTree value key
  | _ => rfl

theorem resolve?_toTree (path : Path) (v : Value) :
    path.resolve? v.toTree = (v.resolve? path).map toTree := by
  induction path generalizing v with
  | nil => rfl
  | cons key path ih =>
    rw [Path.resolve?, resolve?, List.foldlM_cons, List.foldlM_cons, child?_toTree]
    cases v.child? key with
    | none => rfl
    | some child => exact ih child

/-! ## The way over JSON -/

/-- Made only of what there is in JSON too: null, truth values, finite numbers, texts, sequences,
and mappings whose keys are texts. -/
inductive InJson : Value → Prop
  | null : InJson .null
  | bool (value : Bool) : InJson (.bool value)
  | integer (value : Int) : InJson (.integer value)
  | float {value : Float} (finite : value.isFinite) : InJson (.float value)
  | string (text : String) : InJson (.string text)
  | sequence {items : List Value} (values : ∀ item ∈ items, InJson item) : InJson (.sequence items)
  | mapping {entries : List (Value × Value)}
      (keys : ∀ entry ∈ entries, ∃ text, entry.1 = .string text)
      (values : ∀ entry ∈ entries, InJson entry.2) : InJson (.mapping entries)

mutual

/-- The same value in JSON, where there is one. An object is written entry after entry. -/
def toJson? : Value → Option Json.Value
  | .null => some .null
  | .bool value => some (.bool value)
  | .integer value => some (.integer value)
  | .float value => if value.isFinite then some (.float value) else none
  | .string text => some (.string text)
  | .sequence items => (toJsonItems? items).map .array
  | .mapping entries => (toJsonEntries? entries).map fun pairs => .object (Entries.ofPairs pairs)
  | .tagged _ _ => none

def toJsonItems? : List Value → Option (List Json.Value)
  | [] => some []
  | item :: items => do return (← toJson? item) :: (← toJsonItems? items)

def toJsonEntries? : List (Value × Value) → Option (List (String × Json.Value))
  | [] => some []
  | (.string key, value) :: entries => do
    return (key, ← toJson? value) :: (← toJsonEntries? entries)
  | _ => none

end

/-- There is a value in JSON for `v`, and both are the same document. -/
def Agrees (v : Value) : Prop :=
  ∃ json, v.toJson? = some json ∧ json.toTree = v.toTree

theorem toJsonItems?_of_agrees {items : List Value} (each : ∀ item ∈ items, item.Agrees) :
    ∃ items', toJsonItems? items = some items' ∧ Json.Value.toTrees items' = toTrees items := by
  induction items with
  | nil => exact ⟨[], rfl, rfl⟩
  | cons item items ih =>
    obtain ⟨json, written, same⟩ := each item (.head _)
    obtain ⟨items', written', same'⟩ := ih fun other mem => each other (.tail _ mem)
    refine ⟨json :: items', ?_, ?_⟩
    · rw [toJsonItems?, written, written']; rfl
    · rw [Json.Value.toTrees, toTrees, same, same']

theorem toJsonEntries?_of_agrees {entries : List (Value × Value)}
    (keys : ∀ entry ∈ entries, ∃ text, entry.1 = .string text)
    (each : ∀ entry ∈ entries, entry.2.Agrees) :
    ∃ pairs, toJsonEntries? entries = some pairs ∧
      Json.Value.toEntries pairs = toPairs entries := by
  induction entries with
  | nil => exact ⟨[], rfl, rfl⟩
  | cons entry entries ih =>
    obtain ⟨key, value⟩ := entry
    obtain ⟨text, rfl⟩ := keys _ (.head _)
    obtain ⟨json, written, same⟩ := each _ (.head _)
    obtain ⟨pairs, written', same'⟩ :=
      ih (fun other mem => keys other (.tail _ mem)) fun other mem => each other (.tail _ mem)
    refine ⟨(text, json) :: pairs, ?_, ?_⟩
    · rw [toJsonEntries?, written, written']; rfl
    · rw [Json.Value.toEntries, toPairs, same, same']; rfl

theorem InJson.agrees {v : Value} (h : v.InJson) : v.Agrees := by
  induction h with
  | null => exact ⟨.null, rfl, rfl⟩
  | bool value => exact ⟨.bool value, rfl, rfl⟩
  | integer value => exact ⟨.integer value, rfl, rfl⟩
  | float finite => exact ⟨.float _, if_pos finite, rfl⟩
  | string text => exact ⟨.string text, rfl, rfl⟩
  | sequence values ih =>
    obtain ⟨items', written, same⟩ := toJsonItems?_of_agrees ih
    exact ⟨.array items', by rw [toJson?, written]; rfl, by rw [Json.Value.toTree, toTree, same]⟩
  | mapping keys values ih =>
    obtain ⟨pairs, written, same⟩ := toJsonEntries?_of_agrees keys ih
    refine ⟨.object (Entries.ofPairs pairs), by rw [toJson?, written]; rfl, ?_⟩
    rw [Json.Value.toTree_object_ofPairs, toTree, same]

end Yaml.Value

open Yaml.Value

/-- **A mapping becomes an object under the texts of its keys.** Wherever a mapping stands in a
value, at any depth and below any tags, the object at its place in the document has the texts of the
keys, each where it was first mentioned, and under each the last value. A key is a value as well, so
this is true inside of keys too, and inside of values that others replace. A value that JSON can say
becomes the document that it becomes over JSON. -/
theorem mapping_merges_equal_texts (v : Yaml.Value) :
    (∀ (path : Path) (m : Yaml.Value) entries,
      v.resolve? path = some m → m.untagged = .mapping entries →
        ∃ children, path.resolve? v.toTree = some (.object children) ∧
          Entries.Merges (entries.map fun entry => (entry.1.toTree.text, entry.2.toTree))
            children) ∧
    (∀ path : Path, path.resolve? v.toTree = (v.resolve? path).map toTree) ∧
    (v.InJson → ∃ json, v.toJson? = some json ∧ json.toTree = v.toTree) := by
  refine ⟨fun path m entries found mapping => ?_, fun path => resolve?_toTree path v, InJson.agrees⟩
  have object : m.toTree = .object (Entries.ofPairs (toPairs entries)) := by
    rw [← toTree_untagged, mapping, toTree]
  have pairs : toPairs entries =
      entries.map fun entry => (entry.1.toTree.text, entry.2.toTree) := by
    rw [toPairs_eq_map, named, List.map_map]; rfl
  refine ⟨Entries.ofPairs (toPairs entries), ?_, pairs ▸ Entries.merges_ofPairs _⟩
  rw [resolve?_toTree, found, Option.map_some, object]

/-- The number 1, the double and a tagged text have one text; so have a text and a sequence. -/
theorem mapping_merges_equal_texts_of_ones :
    (∃ children,
      Path.resolve? ["0"] (Yaml.Value.sequence [.tagged "!ones" (.mapping [
        (.integer 1, .string "a"), (.string "[1]", .string "b"), (.float 1.0, .string "c"),
        (.sequence [.integer 1], .string "d"),
        (.tagged "!one" (.string "1"), .string "e")])]).toTree = some (.object children) ∧
      children.lookup "1" = some (.string "e") ∧ children.lookup "[1]" = some (.string "d")) ∧
    (Yaml.Value.mapping [(.string "half", .float 0.5)]).toJson?.map Json.Value.toTree =
      some (.object [("half", .number (.float 0.5))]) := by
  have whole : (Yaml.Value.integer 1).toTree.text = "1" := by decide
  have double : (Yaml.Value.float 1.0).toTree.text = "1" := by decide +kernel
  have sequence : (Yaml.Value.sequence [.integer 1]).toTree.text = "[1]" := by decide
  constructor
  · refine ((mapping_merges_equal_texts (.sequence [.tagged "!ones" (.mapping _)])).1 ["0"]
      _ _ rfl rfl).imp fun children built => ⟨built.1, ?_⟩
    have merges := built.2
    simp only [List.map_cons, List.map_nil, whole, double, sequence] at merges
    constructor
    · exact (merges.lookup_eq_some_iff _ _).2 ⟨[_, _, _, _], [], rfl, by decide⟩
    · exact (merges.lookup_eq_some_iff _ _).2 ⟨[_, _, _], [_], rfl, by decide⟩
  · have plain : (Yaml.Value.mapping [(.string "half", .float 0.5)]).InJson :=
      .mapping (by simp) (List.forall_mem_singleton.2 (.float (by decide)))
    obtain ⟨json, written, same⟩ := (mapping_merges_equal_texts _).2.2 plain
    rw [written, Option.map_some, same]
    rfl

end DocQuery
