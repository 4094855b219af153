import DocQuery.KeySet
import Mathlib.Data.List.Basic
import Mathlib.Data.List.Induction

/-!
# What a key set keeps of a list

A set made from a list has each key once, where it was first mentioned.

* `keys_ofList_filter`: leaving keys out first or last comes to the same set, in the same order;
* `keys_ofList_sublist`, `pairwise_idxOf_ofList`: the order is that of the first mention.
-/

namespace DocQuery

namespace KeySet

variable {keys : List String} {s : KeySet} {key : String}

theorem keys_insert (s : KeySet) (key : String) :
    (s.insert key).keys = if key ∈ s.keys then s.keys else s.keys ++ [key] := by
  rw [insert]
  split <;> rfl

theorem ofList_concat (keys : List String) (key : String) :
    ofList (keys ++ [key]) = (ofList keys).insert key := by
  rw [ofList, List.foldl_concat, ofList]

theorem keys_ofList_filter (p : String → Bool) (keys : List String) :
    (ofList (keys.filter p)).keys = (ofList keys).keys.filter p := by
  -- A set is built from the front, so it is the last key that meets the set of the others.
  induction keys using List.reverseRecOn with
  | nil => rfl
  | append_singleton keys key ih =>
    rw [List.filter_append, ofList_concat, keys_insert]
    cases wanted : p key with
    | false =>
      have out : [key].filter p = [] := by simp [wanted]
      rw [out, List.append_nil, ih]
      split <;> simp [wanted]
    | true =>
      have kept : [key].filter p = [key] := by simp [wanted]
      rw [kept, ofList_concat, keys_insert, ih]
      by_cases known : key ∈ (ofList keys).keys <;> simp [known, wanted]

theorem keys_ofList_sublist (keys : List String) : (ofList keys).keys.Sublist keys := by
  induction keys using List.reverseRecOn with
  | nil => exact .slnil
  | append_singleton keys key ih =>
    rw [ofList_concat, keys_insert]
    split
    · exact ih.trans (List.sublist_append_left _ _)
    · exact ih.append (.refl _)

/-- The keys stand in the order in which they were first mentioned. -/
theorem pairwise_idxOf_ofList (keys : List String) :
    (ofList keys).keys.Pairwise fun a b => keys.idxOf a < keys.idxOf b := by
  induction keys using List.reverseRecOn with
  | nil => exact .nil
  | append_singleton keys key ih =>
    have before : (ofList keys).keys.Pairwise
        fun a b => (keys ++ [key]).idxOf a < (keys ++ [key]).idxOf b := by
      refine ih.imp_of_mem fun {a b} ha hb lt => ?_
      rwa [List.idxOf_append_of_mem (mem_ofList.1 ha), List.idxOf_append_of_mem (mem_ofList.1 hb)]
    rw [ofList_concat, keys_insert]
    split
    · exact before
    next new =>
      rw [List.pairwise_append]
      refine ⟨before, List.pairwise_singleton _ _, fun a ha b hb => ?_⟩
      obtain rfl := List.mem_singleton.1 hb
      have ha' := mem_ofList.1 ha
      rw [List.idxOf_append_of_mem ha', List.idxOf_append_of_notMem (mt mem_ofList.2 new)]
      have lt := List.idxOf_lt_length_iff.2 ha'
      omega

end KeySet

end DocQuery
