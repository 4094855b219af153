import DocQuery.Proofs.Tree.Faces
import DocQuery.Proofs.Tree.Number
import Mathlib.Data.List.Nodup

/-!
# How far equality is an equivalence

Two integers compare exactly, but an integer and a double compare as doubles. So equality is an
equivalence where there are no doubles, and with doubles a chain of equalities may fail to close.

* `chain_of_equals_closes`: a chain fails where it leads from one integer by a double to another,
  and nowhere else;
* `same_iff_indistinguishable`: without doubles, equal trees are those that no path tells apart, and
  those that differ in the order of entries alone.
-/

namespace DocQuery

/-! ## Chains -/

theorem Face.agree_iff_of_between {f g h : Face} (first : f.Agree g) (second : g.Agree h) :
    f.Agree h ↔ ∀ m x n, f = .number (.integer m) → g = .number (.float x) →
      h = .number (.integer n) → m = n := by
  cases f with
  | number p =>
    cases g with
    | number q =>
      cases h with
      | number r =>
        show p.same r = true ↔ _
        simpa only [Face.number.injEq] using Number.same_iff_of_between first second
      | _ => cases second
    | _ => cases first
  | _ =>
    cases first
    exact iff_of_true second nofun

namespace Tree

theorem rel_iff_of_between {a? b? c? : Option Tree}
    (first : Option.Rel (fun x y => x.face.Agree y.face) a? b?)
    (second : Option.Rel (fun x y => x.face.Agree y.face) b? c?) :
    Option.Rel (fun x y => x.face.Agree y.face) a? c? ↔
      ∀ m x n, a? = some (.number (.integer m)) → b? = some (.number (.float x)) →
        c? = some (.number (.integer n)) → m = n := by
  cases first with
  | none =>
    cases second
    exact iff_of_true .none nofun
  | some first =>
    cases second with
    | some second =>
      rw [Option.rel_some_some, Face.agree_iff_of_between first second]
      simp only [face_eq_number_iff, Option.some.injEq]

end Tree

/-- Two integers next to each other are equal to one double, but not to each other. -/
theorem same_not_trans :
    (Tree.number (.integer 9007199254740992)).same (.number (.float 9007199254740992.0)) = true ∧
      (Tree.number (.float 9007199254740992.0)).same (.number (.integer 9007199254740993)) = true ∧
      (Tree.number (.integer 9007199254740992)).same (.number (.integer 9007199254740993)) =
        false := by
  decide

/-- **A chain of equalities closes unless a double stands between two integers.** If the first tree
is equal to the second and the second to the third, then the first is equal to the third just if no
path leads to an integer in the first, to a double in the second and to another integer in the
third. There is no such path if the integers at the ends are below `2 ^ 53` in size. -/
theorem chain_of_equals_closes (a b c : Tree) (uniqueA : a.WellKeyed) (uniqueB : b.WellKeyed)
    (first : a.same b = true) (second : b.same c = true) :
    (a.same c = true ↔ ∀ (path : Path) m x n, path.resolve? a = some (.number (.integer m)) →
      path.resolve? b = some (.number (.float x)) →
        path.resolve? c = some (.number (.integer n)) → m = n) ∧
    ((∀ (path : Path) m, path.resolve? a = some (.number (.integer m)) →
        m.toInt.natAbs < 2 ^ 53) →
      (∀ (path : Path) n, path.resolve? c = some (.number (.integer n)) →
        n.toInt.natAbs < 2 ^ 53) →
      a.same c = true) := by
  have ab := (Tree.same_iff_faces uniqueA).1 first
  have bc := (Tree.same_iff_faces uniqueB).1 second
  have closes := (Tree.same_iff_faces (b := c) uniqueA).trans
    (forall_congr' fun path => Tree.rel_iff_of_between (ab path) (bc path))
  refine ⟨closes, fun smallA smallC => closes.2 fun path m x n ha hb hc => ?_⟩
  have first := ab path
  have second := bc path
  rw [ha, hb, Option.rel_some_some] at first
  rw [hb, hc, Option.rel_some_some] at second
  exact Number.eq_of_between (smallA path m ha) (smallC path n hc) first second

/-- By a double between two items that differ, and back to an integer that it stands for. -/
theorem chain_of_equals_closes_at_item :
    (Tree.array [.number (.integer 9007199254740992)]).same
        (.array [.number (.integer 9007199254740993)]) = false ∧
      (Tree.number (.integer 7)).same (.number (.integer 7)) = true := by
  constructor
  · have single (n : Number) : (Tree.array [.number n]).WellKeyed := ⟨trivial, trivial⟩
    have chain := chain_of_equals_closes (.array [.number (.integer 9007199254740992)])
      (.array [.number (.float 9007199254740992.0)]) (.array [.number (.integer 9007199254740993)])
      (single _) (single _) (by decide) (by decide)
    rw [← Bool.not_eq_true, chain.1]
    intro closed
    exact absurd (closed ["0"] _ _ _ rfl rfl rfl) (by decide)
  · have seven (path : Path) (m : Int64)
        (found : path.resolve? (.number (.integer 7)) = some (.number (.integer m))) :
        m.toInt.natAbs < 2 ^ 53 := by
      cases path with
      | nil =>
        cases found
        decide
      | cons => cases found
    have chain := chain_of_equals_closes (.number (.integer 7)) (.number (.float 7.0))
      (.number (.integer 7)) trivial trivial (by decide) (by decide)
    exact chain.2 seven seven

namespace Tree

variable {a b child node : Tree} {key : String} {path : Path}

/-! ## Trees without doubles -/

/-- No number in the tree is a double. -/
inductive Floatless : Tree → Prop
  | null : Floatless .null
  | bool (value : Bool) : Floatless (.bool value)
  | integer (value : Int64) : Floatless (.number (.integer value))
  | string (text : String) : Floatless (.string text)
  | array {items : List Tree} (below : ∀ item ∈ items, Floatless item) : Floatless (.array items)
  | object {entries : List (String × Tree)} (below : ∀ entry ∈ entries, Floatless entry.2) :
      Floatless (.object entries)

/-- Neither is a number in it a double nor a key in an object repeated. -/
structure Exact (t : Tree) : Prop where
  unique : t.WellKeyed
  floatless : t.Floatless

theorem Floatless.child? (h : a.Floatless) (hc : a.child? key = some child) :
    child.Floatless := by
  cases h with
  | array below =>
    obtain ⟨i, -, item⟩ := Option.bind_eq_some_iff.1 hc
    exact below child (List.mem_of_getElem? item)
  | object below =>
    obtain ⟨before, after, rfl, -⟩ := List.lookup_eq_some_iff.1 hc
    exact below (key, child) (by simp)
  | _ => cases hc

/-- Without doubles faces agree only if they are the same. -/
theorem Floatless.agree_iff (ha : a.Floatless) (hb : b.Floatless) :
    a.face.Agree b.face ↔ a.face = b.face := by
  cases ha <;> cases hb <;> simp [face, Face.Agree, Number.same]

namespace Exact

theorem child? (h : a.Exact) (hc : a.child? key = some child) : child.Exact :=
  ⟨h.unique.child? hc, h.floatless.child? hc⟩

theorem resolve? (h : a.Exact) (resolved : path.resolve? a = some node) : node.Exact :=
  of_resolve? Exact.child? h resolved

theorem same_iff_map_face (ha : a.Exact) (hb : b.Exact) : a.same b = true ↔
    ∀ path : Path, (path.resolve? a).map face = (path.resolve? b).map face := by
  rw [same_iff_faces ha.unique]
  refine forall_congr' fun path => ?_
  rw [← rel_face_iff]
  exact rel_congr fun x y hx hy =>
    (ha.resolve? hx).floatless.agree_iff (hb.resolve? hy).floatless

theorem same_self (h : a.Exact) : a.same a = true :=
  (h.same_iff_map_face h).2 fun _ => rfl

end Exact

end Tree

/-! ## Equal trees are reordered -/

namespace Entries

variable {α : Type} {as bs : Entries α}

/-- The entries with the values that others have under their keys. -/
def valuedBy (entries others : Entries α) : Entries α :=
  entries.map fun entry => (entry.1, (others.lookup entry.1).getD entry.2)

theorem keys_valuedBy (as bs : Entries α) : (as.valuedBy bs).keys = as.keys := by
  simp [valuedBy, keys]

theorem lookup_valuedBy (as bs : Entries α) (key : String) :
    (as.valuedBy bs).lookup key = (as.lookup key).map (bs.lookup key).getD := by
  induction as with
  | nil => rfl
  | cons entry as ih =>
    obtain ⟨k, v⟩ := entry
    simp only [valuedBy, List.map_cons, List.lookup_cons] at ih ⊢
    split
    next same =>
      rw [eq_of_beq same]
      rfl
    next => exact ih

/-- What is found under every key determines the entries, up to their order. -/
theorem perm_of_lookup_eq (ua : as.keys.Nodup) (ub : bs.keys.Nodup)
    (h : ∀ key, as.lookup key = bs.lookup key) : as.Perm bs := by
  rw [List.perm_ext_iff_of_nodup (ua.of_map _) (ub.of_map _)]
  rintro ⟨key, value⟩
  rw [← lookup_eq_some_iff_mem ua, ← lookup_eq_some_iff_mem ub, h]

end Entries

namespace Tree

variable {a b : Tree}

namespace Reordered

/-- What is replaced one after another is replaced together. -/
theorem each {α : Type} {R : α → α → Prop} {as bs : List α} (whole : List α → Tree)
    (place : ∀ before after a b, R a b →
      (whole (before ++ a :: after)).Reordered (whole (before ++ b :: after)))
    (h : List.Forall₂ R as bs) : (whole as).Reordered (whole bs) := by
  have after (before : List α) : (whole (before ++ as)).Reordered (whole (before ++ bs)) := by
    induction h generalizing before with
    | nil => exact .refl _
    | @cons a b as bs first _ ih =>
      have rest := ih (before ++ [b])
      simp only [List.append_assoc, List.singleton_append] at rest
      exact (place before as a b first).trans rest
  exact after []

theorem items {as bs : List Tree} (h : List.Forall₂ Reordered as bs) :
    (array as).Reordered (array bs) :=
  each array (fun before after _ _ => .item before after) h

theorem values {as bs : List (String × Tree)}
    (h : List.Forall₂ (fun x y => x.1 = y.1 ∧ x.2.Reordered y.2) as bs) :
    (object as).Reordered (object bs) := by
  refine each object ?_ h
  rintro before after ⟨key, a⟩ ⟨_, b⟩ ⟨rfl, below⟩
  exact .value before key after below

/-- Key by key: each entry takes its value from the second object, and then they change places. -/
theorem of_lookup {as bs : List (String × Tree)} (ua : (Entries.keys as).Nodup)
    (ub : (Entries.keys bs).Nodup)
    (h : ∀ key, Option.Rel Reordered (as.lookup key) (bs.lookup key)) :
    (object as).Reordered (object bs) := by
  have valued : (object as).Reordered (object (Entries.valuedBy as bs)) := by
    refine values ?_
    rw [Entries.valuedBy, List.forall₂_map_right_iff, List.forall₂_same]
    rintro ⟨key, a⟩ mem
    have here := h key
    rw [(Entries.lookup_eq_some_iff_mem ua).2 mem] at here
    cases hb : bs.lookup key with
    | none => exact ⟨rfl, .refl a⟩
    | some b =>
      rw [hb, Option.rel_some_some] at here
      exact ⟨rfl, here⟩
  have found {a? b? : Option Tree} (h : Option.Rel Reordered a? b?) : a?.map b?.getD = b? := by
    cases h <;> rfl
  have lookup (key : String) : (Entries.valuedBy as bs).lookup key = bs.lookup key :=
    (Entries.lookup_valuedBy as bs key).trans (found (h key))
  have keys : (Entries.valuedBy as bs).keys.Nodup := by rwa [Entries.keys_valuedBy]
  exact valued.trans (.entries (Entries.perm_of_lookup_eq keys ub lookup))

end Reordered

theorem Exact.reordered_of_same (ha : a.Exact) (hb : b.Exact) (h : a.same b = true) :
    a.Reordered b := by
  induction a using induction_child generalizing b with
  | step a ih =>
    obtain ⟨faces, children⟩ := (same_iff_children ha.unique.nodup_keys).1 h
    rw [ha.floatless.agree_iff hb.floatless] at faces
    have below (key : String) : Option.Rel Reordered (a.child? key) (b.child? key) :=
      rel_imp (children key) fun x y hx hy => ih key x hx (ha.child? hx) (hb.child? hy)
    cases a with
    | array as =>
      cases b with
      | array bs => exact .items (forall₂_iff_child?.2 below)
      | _ => cases faces
    | object as =>
      cases b with
      | object bs => exact .of_lookup ha.unique.nodup_keys hb.unique.nodup_keys below
      | _ => cases faces
    | _ =>
      cases b <;> cases faces
      exact .refl _

end Tree

/-- **Without doubles, equality is what no path can tell apart.** Two trees are equal just if every
path leads somewhere in both or in neither, and then to nodes of one kind, with the same content if
they are leaves and with as many children. This is an equivalence. It ignores the order in which the
entries of objects stand, at any depth, and nothing else; arrays are compared item by item, in
order. -/
theorem same_iff_indistinguishable :
    (∀ a b : Tree, a.Exact → b.Exact → (a.same b = true ↔
      ∀ path : Path, (path.resolve? a).map Tree.face = (path.resolve? b).map Tree.face)) ∧
    Equivalence (fun a b : { t : Tree // t.Exact } => a.val.same b.val = true) ∧
    (∀ a b : Tree, a.Exact → b.Exact → (a.same b = true ↔ a.Reordered b)) ∧
    ∀ as bs : List Tree, (Tree.array as).same (.array bs) = true ↔
      List.Forall₂ (fun a b => a.same b = true) as bs := by
  refine ⟨fun a b ha hb => ha.same_iff_map_face hb, ⟨?_, ?_, ?_⟩, fun a b ha hb => ?_,
    fun as bs => ?_⟩
  · exact fun a => a.property.same_self
  · intro a b h
    rw [a.property.same_iff_map_face b.property] at h
    exact (b.property.same_iff_map_face a.property).2 fun path => (h path).symm
  · intro a b c first second
    rw [a.property.same_iff_map_face b.property] at first
    rw [b.property.same_iff_map_face c.property] at second
    exact (a.property.same_iff_map_face c.property).2 fun path =>
      (first path).trans (second path)
  · refine ⟨ha.reordered_of_same hb, fun h => ?_⟩
    rw [← h.same_eq ha.unique a]
    exact ha.same_self
  · rw [Tree.same, Tree.sameItems_iff]

/-- Two entries in either order. -/
theorem same_iff_indistinguishable_of_entries :
    (Tree.object [("a", .number (.integer 1)), ("b", .null)]).Exact ∧
      (Tree.object [("b", .null), ("a", .number (.integer 1))]).Exact ∧
      (Tree.object [("a", .number (.integer 1)), ("b", .null)]).same
        (.object [("b", .null), ("a", .number (.integer 1))]) = true ∧
      ∀ path : Path,
        (path.resolve? (.object [("a", .number (.integer 1)), ("b", .null)])).map Tree.face =
          (path.resolve? (.object [("b", .null), ("a", .number (.integer 1))])).map Tree.face := by
  have first : (Tree.object [("a", .number (.integer 1)), ("b", .null)]).Exact := by
    refine ⟨by simp [Tree.WellKeyed, Tree.WellKeyedEntries], .object ?_⟩
    simpa using ⟨.integer 1, .null⟩
  have second : (Tree.object [("b", .null), ("a", .number (.integer 1))]).Exact := by
    refine ⟨by simp [Tree.WellKeyed, Tree.WellKeyedEntries], .object ?_⟩
    simpa using ⟨.null, .integer 1⟩
  obtain ⟨faces, -, reordered, -⟩ := same_iff_indistinguishable
  have same := (reordered _ _ first second).2 (.entries (.swap _ _ _))
  exact ⟨first, second, same, (faces _ _ first second).1 same⟩

/-- The order of items counts. -/
example : (Tree.array [.bool true, .null]).same (.array [.null, .bool true]) = false := by
  decide

end DocQuery
