import DocQuery.Proofs.KeySet
import DocQuery.Proofs.Walk.Moves

/-!
# What an element takes at a node

The walk does not try every key of a node. It asks the element for candidates and keeps those that
lead to a child the element accepts.

* `Element.keys_keysAt`: candidates that are not accepted leave no trace in the order of the others;
* `keysAt_agrees`: no key is missed, none is taken that the tests of the element refuse, and the order
  is that of the node for a symbol and that of the first mention for options.
-/

namespace DocQuery

namespace Element

theorem keys_keysAt (e : Element) (node : Tree) : (e.keysAt node).keys =
    (KeySet.ofList (e.candidates node)).keys.filter fun key => (node.child? key).any e.matchesValue :=
  KeySet.keys_ofList_filter _ _

theorem keysAt_sublist (e : Element) (node : Tree) :
    (e.keysAt node).keys.Sublist (e.candidates node) := by
  rw [keys_keysAt]
  exact List.filter_sublist.trans (KeySet.keys_ofList_sublist _)

theorem pairwise_idxOf_keysAt (e : Element) (node : Tree) : (e.keysAt node).keys.Pairwise
    fun a b => (e.candidates node).idxOf a < (e.candidates node).idxOf b := by
  rw [keys_keysAt]
  exact (KeySet.pairwise_idxOf_ofList _).filter _

end Element

/-- **The keys that an element has at a node are those that its tests accept.** They come in the order
of the node for a symbol, and in the order of first mention for options. -/
theorem keysAt_agrees :
    (∀ (e : Element) (node : Tree),
      (e.keysAt node).keys.Nodup ∧
      ∀ key, key ∈ (e.keysAt node).keys ↔ key ∈ node.keys ∧ e.matchesKey key = true ∧
        ∀ p, e = .pattern p → ∃ child, node.child? key = some child ∧ p.matchesValue child = true) ∧
    (∀ (value : Option Tree) (marker : Option Marker) (node : Tree),
      ((Element.pattern (.test .wildcard value marker)).keysAt node).keys.Sublist node.keys ∧
      ((Element.pattern (.test .primitive value marker)).keysAt node).keys.Sublist node.keys) ∧
    ∀ (names : List String) (value : Option Tree) (marker : Option Marker) (node : Tree),
      ((Element.pattern (.test (.options names) value marker)).keysAt node).keys.Pairwise
        fun a b => names.idxOf a < names.idxOf b := by
  refine ⟨fun e node => ⟨(e.keysAt node).nodup, fun key => ?_⟩, fun value marker node => ?_,
    fun names value marker node => ?_⟩
  · rw [Element.mem_keysAt_iff, Tree.mem_keys_iff]
    cases e with
    | key name => simp [Element.Takes, Element.matchesValue]
    | pattern p =>
      constructor
      · rintro ⟨child, hc, hk, hv⟩
        refine ⟨⟨child, hc⟩, hk, ?_⟩
        rintro _ ⟨⟩
        exact ⟨child, hc, hv⟩
      · rintro ⟨-, hk, accepts⟩
        obtain ⟨child, hc, hv⟩ := accepts p rfl
        exact ⟨child, hc, hk, hv⟩
  · exact ⟨Element.keysAt_sublist _ node, Element.keysAt_sublist _ node⟩
  · exact Element.pairwise_idxOf_keysAt (.pattern (.test (.options names) value marker)) node

/-- An option that is mentioned again, and one that is no index of the array. -/
example : ((Element.pattern (.options ["01", "1", "0", "1"])).keysAt (.array [.null, .null])).keys =
    ["1", "0"] := by
  decide

end DocQuery
