import DocQuery.Document
import DocQuery.Proofs.Entries
import DocQuery.Proofs.Equality
import DocQuery.Proofs.Json.Token

/-!
# Reading compact text

The compact text of a tree without doubles is JSON that says the same tree, as long as containers
are not nested deeper than the reader follows them.

The writer goes down the tree; the reader goes along the text and keeps the open containers on a
stack. So what is proved of a node is said for any stack and for any text that follows
(`ReadsBack`): at the end of the node's text the reader is where the whole value would have taken
it.

* `readFrom_writeItems`, `readFrom_writeEntries`: the rest of a container, up to its end;
* `readsBack`: every node;
* `parse_compact_text`: a whole document.
-/

namespace DocQuery

theorem Number.ofInt_toInt (value : Int64) : ofInt value.toInt = .integer value := by
  rw [ofInt, if_pos ⟨value.minValue_le_toInt, value.toInt_le⟩, Int64.ofInt_toInt]

/-! ## Nesting -/

namespace Tree

mutual

/-- How many containers are nested in one another, the node itself counted. -/
def depth : Tree → Nat
  | .array items => depthItems items + 1
  | .object entries => depthEntries entries + 1
  | _ => 0

def depthItems : List Tree → Nat
  | [] => 0
  | item :: items => max (depth item) (depthItems items)

def depthEntries : List (String × Tree) → Nat
  | [] => 0
  | (_, child) :: entries => max (depth child) (depthEntries entries)

end

end Tree

namespace Json

/-! ## Trees as values -/

namespace Value

mutual

/-- The value of the text of a tree, if there are no doubles in it. -/
def ofTree : Tree → Value
  | .null => .null
  | .bool value => .bool value
  | .number (.integer value) => .integer value.toInt
  | .number (.float value) => .float value
  | .string text => .string text
  | .array items => .array (ofItems items)
  | .object entries => .object (ofEntries entries)

def ofItems : List Tree → List Value
  | [] => []
  | item :: items => ofTree item :: ofItems items

def ofEntries : List (String × Tree) → List (String × Value)
  | [] => []
  | (key, child) :: entries => (key, ofTree child) :: ofEntries entries

end

mutual

theorem toTree_ofTree (t : Tree) : (ofTree t).toTree = t := by
  cases t with
  | number value =>
    cases value with
    | integer value => rw [ofTree, toTree, Number.ofInt_toInt]
    | float value => rw [ofTree, toTree]
  | array items => rw [ofTree, toTree, toTrees_ofItems]
  | object entries => rw [ofTree, toTree, toEntries_ofEntries]
  | _ => rw [ofTree, toTree]

theorem toTrees_ofItems (items : List Tree) : toTrees (ofItems items) = items := by
  cases items with
  | nil => rfl
  | cons item items => rw [ofItems, toTrees, toTree_ofTree, toTrees_ofItems]

theorem toEntries_ofEntries (entries : List (String × Tree)) :
    toEntries (ofEntries entries) = entries := by
  match entries with
  | [] => rfl
  | (key, child) :: entries => rw [ofEntries, toEntries, toTree_ofTree, toEntries_ofEntries]

end

theorem keys_ofEntries (entries : List (String × Tree)) :
    Entries.keys (ofEntries entries) = Entries.keys entries := by
  induction entries with
  | nil => rfl
  | cons entry entries ih => simpa [ofEntries, Entries.keys] using ih

end Value

/-! ## The rest of a container -/

variable {t item : Tree} {items : List Tree} {entries : List (String × Tree)} {key : String}
  {frames : List Frame} {mayEnd : Bool} {rest : List Char}

/-- The reader goes over the text of the node to where its value takes it. -/
def ReadsBack (t : Tree) : Prop :=
  ∀ (frames : List Frame) (mayEnd : Bool) (rest : List Char),
    frames.length + t.depth ≤ maxDepth → Delimited rest →
      readFrom (.expectValue frames mayEnd) (write t ++ rest) =
        readFrom (.finish (.ofTree t) frames) rest

theorem delimited_cons {c : Char} (h : c = ',' ∨ c = ']' ∨ c = '}') (rest : List Char) :
    Delimited (c :: rest) := by
  rintro _ ⟨⟩
  exact h

theorem delimited_writeItems (items : List Tree) (rest : List Char) :
    Delimited (writeItems items ++ rest) := by
  cases items with
  | nil => exact delimited_cons (by decide) _
  | cons => exact delimited_cons (by decide) _

theorem delimited_writeEntries (entries : List (String × Tree)) (rest : List Char) :
    Delimited (writeEntries entries ++ rest) := by
  cases entries with
  | nil => exact delimited_cons (by decide) _
  | cons => exact delimited_cons (by decide) _

theorem readFrom_writeItems (each : ∀ item ∈ items, ReadsBack item)
    (shallow : frames.length + 1 + Tree.depthItems items ≤ maxDepth) (read : List Value)
    (rest : List Char) :
    readFrom (.afterItem read frames) (writeItems items ++ rest) =
      readFrom (.endArray ((Value.ofItems items).reverse ++ read) frames) rest := by
  induction items generalizing read with
  | nil => exact readFrom_of_next? .endArray rfl rfl
  | cons item items ih =>
    obtain ⟨first, later⟩ := List.forall_mem_cons.1 each
    rw [Tree.depthItems] at shallow
    have inside : (Frame.array read :: frames).length + item.depth ≤ maxDepth := by
      rw [List.length_cons]
      omega
    calc readFrom (.afterItem read frames) (writeItems (item :: items) ++ rest)
      _ = readFrom (.afterItem read frames)
            (',' :: (write item ++ (writeItems items ++ rest))) := by
        rw [writeItems, List.cons_append, List.cons_append, List.append_assoc]
      _ = readFrom (.expectValue (.array read :: frames) false)
            (write item ++ (writeItems items ++ rest)) :=
        readFrom_of_next? .comma rfl rfl
      _ = readFrom (.afterItem (.ofTree item :: read) frames) (writeItems items ++ rest) :=
        first _ _ _ inside (delimited_writeItems items rest)
      _ = readFrom (.endArray ((Value.ofItems items).reverse ++ .ofTree item :: read) frames)
            rest :=
        ih later (by omega) _
      _ = _ := by rw [Value.ofItems, List.reverse_cons, List.append_assoc, List.singleton_append]

/-- A key, a colon and the node under the key. -/
theorem readFrom_entry (first : ReadsBack t) (inside : frames.length + 1 + t.depth ≤ maxDepth)
    (ends : Delimited rest) (read : List (String × Value)) (key : String) (mayEnd : Bool) :
    readFrom (.expectKey read frames mayEnd) (quote key ++ ':' :: (write t ++ rest)) =
      readFrom (.afterEntry ((key, .ofTree t) :: read) frames) rest :=
  calc readFrom (.expectKey read frames mayEnd) (quote key ++ ':' :: (write t ++ rest))
    _ = readFrom (.expectColon read key frames) (':' :: (write t ++ rest)) :=
      readFrom_of_next? _ (next?_quote key _) rfl
    _ = readFrom (.expectValue (.object read key :: frames) false) (write t ++ rest) :=
      readFrom_of_next? .colon rfl rfl
    _ = readFrom (.afterEntry ((key, .ofTree t) :: read) frames) rest :=
      first _ _ _ (by rwa [List.length_cons]) ends

theorem readFrom_writeEntries (each : ∀ entry ∈ entries, ReadsBack entry.2)
    (shallow : frames.length + 1 + Tree.depthEntries entries ≤ maxDepth)
    (read : List (String × Value)) (rest : List Char) :
    readFrom (.afterEntry read frames) (writeEntries entries ++ rest) =
      readFrom (.endObject ((Value.ofEntries entries).reverse ++ read) frames) rest := by
  induction entries generalizing read with
  | nil => exact readFrom_of_next? .endObject rfl rfl
  | cons entry entries ih =>
    obtain ⟨key, child⟩ := entry
    obtain ⟨first, later⟩ := List.forall_mem_cons.1 each
    rw [Tree.depthEntries] at shallow
    have inside : frames.length + 1 + child.depth ≤ maxDepth := by omega
    calc readFrom (.afterEntry read frames) (writeEntries ((key, child) :: entries) ++ rest)
      _ = readFrom (.afterEntry read frames)
            (',' :: (quote key ++ ':' :: (write child ++ (writeEntries entries ++ rest)))) := by
        simp only [writeEntries, List.cons_append, List.append_assoc]
      _ = readFrom (.expectKey read frames false)
            (quote key ++ ':' :: (write child ++ (writeEntries entries ++ rest))) :=
        readFrom_of_next? .comma rfl rfl
      _ = readFrom (.afterEntry ((key, .ofTree child) :: read) frames)
            (writeEntries entries ++ rest) :=
        readFrom_entry first inside (delimited_writeEntries entries rest) _ _ _
      _ = readFrom (.endObject ((Value.ofEntries entries).reverse ++ (key, .ofTree child) :: read)
            frames) rest :=
        ih later (by omega) _
      _ = _ := by
        rw [Value.ofEntries, List.reverse_cons, List.append_assoc, List.singleton_append]

/-! ## Nodes -/

theorem readsBack_array (each : ∀ item ∈ items, ReadsBack item) : ReadsBack (.array items) := by
  intro frames mayEnd rest shallow ends
  rw [Tree.depth] at shallow
  have opens : (Reading.expectValue frames mayEnd).step? .beginArray =
      some (.expectValue (.array [] :: frames) true) := if_pos (by omega)
  cases items with
  | nil =>
    calc readFrom (.expectValue frames mayEnd) ('[' :: ']' :: rest)
      _ = readFrom (.expectValue (.array [] :: frames) true) (']' :: rest) :=
        readFrom_of_next? .beginArray rfl opens
      _ = readFrom (.endArray [] frames) rest := readFrom_of_next? .endArray rfl rfl
  | cons item items =>
    obtain ⟨first, later⟩ := List.forall_mem_cons.1 each
    rw [Tree.depthItems] at shallow
    have inside : (Frame.array [] :: frames).length + item.depth ≤ maxDepth := by
      rw [List.length_cons]
      omega
    calc readFrom (.expectValue frames mayEnd) (write (.array (item :: items)) ++ rest)
      _ = readFrom (.expectValue frames mayEnd)
            ('[' :: (write item ++ (writeItems items ++ rest))) := by
        simp only [write, List.cons_append, List.append_assoc]
      _ = readFrom (.expectValue (.array [] :: frames) true)
            (write item ++ (writeItems items ++ rest)) :=
        readFrom_of_next? .beginArray rfl opens
      _ = readFrom (.afterItem [.ofTree item] frames) (writeItems items ++ rest) :=
        first _ _ _ inside (delimited_writeItems items rest)
      _ = readFrom (.endArray ((Value.ofItems items).reverse ++ [.ofTree item]) frames) rest :=
        readFrom_writeItems later (by omega) _ _
      _ = _ := by
        rw [← List.reverse_cons, Reading.endArray, List.reverse_reverse]
        rfl

theorem readsBack_object (each : ∀ entry ∈ entries, ReadsBack entry.2)
    (unique : (Entries.keys entries).Nodup) : ReadsBack (.object entries) := by
  intro frames mayEnd rest shallow ends
  rw [Tree.depth] at shallow
  have opens : (Reading.expectValue frames mayEnd).step? .beginObject =
      some (.expectKey [] frames true) := if_pos (by omega)
  -- No key takes the place of another when the object ends.
  have whole : readFrom (.endObject (Value.ofEntries entries).reverse frames) rest =
      readFrom (.finish (.ofTree (.object entries)) frames) rest := by
    rw [← Value.keys_ofEntries] at unique
    rw [Reading.endObject, List.reverse_reverse, Entries.ofPairs_of_nodup unique, Value.ofTree]
  cases entries with
  | nil =>
    calc readFrom (.expectValue frames mayEnd) ('{' :: '}' :: rest)
      _ = readFrom (.expectKey [] frames true) ('}' :: rest) :=
        readFrom_of_next? .beginObject rfl opens
      _ = readFrom (.endObject [] frames) rest := readFrom_of_next? .endObject rfl rfl
  | cons entry entries =>
    obtain ⟨key, child⟩ := entry
    obtain ⟨first, later⟩ := List.forall_mem_cons.1 each
    rw [Tree.depthEntries] at shallow
    have inside : frames.length + 1 + child.depth ≤ maxDepth := by omega
    calc readFrom (.expectValue frames mayEnd) (write (.object ((key, child) :: entries)) ++ rest)
      _ = readFrom (.expectValue frames mayEnd)
            ('{' :: (quote key ++ ':' :: (write child ++ (writeEntries entries ++ rest)))) := by
        simp only [write, List.cons_append, List.append_assoc]
      _ = readFrom (.expectKey [] frames true)
            (quote key ++ ':' :: (write child ++ (writeEntries entries ++ rest))) :=
        readFrom_of_next? .beginObject rfl opens
      _ = readFrom (.afterEntry [(key, .ofTree child)] frames) (writeEntries entries ++ rest) :=
        readFrom_entry first inside (delimited_writeEntries entries rest) _ _ _
      _ = readFrom (.endObject ((Value.ofEntries entries).reverse ++ [(key, .ofTree child)]) frames)
            rest :=
        readFrom_writeEntries later (by omega) _ _
      _ = _ := by
        rw [← whole, Value.ofEntries, List.reverse_cons]

theorem readsBack (floatless : t.Floatless) (unique : t.WellKeyed) : ReadsBack t := by
  induction floatless with
  | null => exact fun _ _ _ _ _ => readFrom_of_next? (.leaf .null) rfl rfl
  | bool value =>
    cases value with
    | true => exact fun _ _ _ _ _ => readFrom_of_next? (.leaf (.bool true)) rfl rfl
    | false => exact fun _ _ _ _ _ => readFrom_of_next? (.leaf (.bool false)) rfl rfl
  | integer value =>
    exact fun _ _ _ _ ends => readFrom_of_next? _ (next?_numeral value ends) rfl
  | string text => exact fun _ _ rest _ _ => readFrom_of_next? _ (next?_quote text rest) rfl
  | array _ ih =>
    rw [Tree.WellKeyed, Tree.wellKeyedItems_iff] at unique
    exact readsBack_array fun item mem => ih item mem (unique item mem)
  | object _ ih =>
    rw [Tree.WellKeyed, Tree.wellKeyedEntries_iff] at unique
    exact readsBack_object (fun entry mem => ih entry mem (unique.2 entry mem)) unique.1

theorem ofText?_compact (exact : t.Exact) (shallow : t.depth ≤ maxDepth) :
    Value.ofText? (compact t) = some (.ofTree t) := by
  have nothing : Delimited [] := fun _ h => by cases h
  have read := readsBack exact.floatless exact.unique [] false [] (by simpa using shallow) nothing
  rw [List.append_nil] at read
  rw [Value.ofText?, compact, String.toList_ofList, read, Reading.finish, readFrom]

end Json

/-- **The compact text of a tree reads back as the same tree.** Take an object or an array in which
no number is a double and at most 127 containers are nested in one another. Its text is read as JSON
without failure, and the result is the tree itself: the kinds, the whole numbers of 64 bits, the
texts, and the entries in their order. -/
theorem parse_compact_text (t : Tree) (container : t.isContainer = true) (exact : t.Exact)
    (shallow : t.depth ≤ 127) : Format.json.parse t.text = .ok t := by
  have compact : t.text = Json.compact t := by
    cases t with
    | array | object => rfl
    | _ => cases container
  rw [Format.parse, compact, Json.ofText?_compact exact shallow]
  exact congrArg Except.ok (Json.Value.toTree_ofTree t)

/-- A key that is escaped, the least number, and a container with nothing in it. -/
theorem parse_compact_text_escaped : ∃ t : Tree,
    t = .object [("\x01", .array [.number (.integer Int64.minValue), .object []])] ∧
      t.isContainer = true ∧ t.Exact ∧ t.depth ≤ 127 ∧
      Format.json.parse "\x7b\"\\u0001\":[-9223372036854775808,\x7b\x7d]\x7d" = .ok t := by
  have exact : Tree.Exact
      (.object [("\x01", .array [.number (.integer Int64.minValue), .object []])]) := by
    refine ⟨by simp [Tree.WellKeyed, Tree.WellKeyedEntries, Tree.WellKeyedItems], .object ?_⟩
    refine List.forall_mem_singleton.2 (.array ?_)
    exact List.forall_mem_cons.2 ⟨.integer _, List.forall_mem_singleton.2 (.object (by simp))⟩
  have text : Tree.text
      (.object [("\x01", .array [.number (.integer Int64.minValue), .object []])]) =
        "\x7b\"\\u0001\":[-9223372036854775808,\x7b\x7d]\x7d" := by
    decide +kernel
  refine ⟨_, rfl, rfl, exact, by decide, ?_⟩
  rw [← text]
  exact parse_compact_text _ rfl exact (by decide)

end DocQuery
