import Hashlock.Proofs.Condition.Codec
import Hashlock.Proofs.Condition.Derivation

/-!
# The order of conditions

Conditions are compared by their encodings, and they are equal when their parts are. The two go
together because an encoding tells its condition: `Condition.compare` is a linear order, and a tie
is equality (`order_of_encodings`). More than that, no encoding starts with another one, so where
two of them differ they do so within both.

Branches are committed to as sorted encodings. Whether conditions are sorted and then encoded or the
other way round makes no difference, and neither does the sorting procedure: a list of conditions has
one arrangement in order.

## What injectivity rests on

The subtypes of a simple kind are not written, so an encoding would not tell them. That it need not
is one of the two rules that hold of every condition: a simple kind has none.
-/

namespace Hashlock.Condition

/-! ## Comparing -/

theorem compare_eq_eq_iff {a b : Condition} : a.compare b = .eq ↔ a.encode = b.encode :=
  Bytes.compare_eq_iff

instance : Std.TransCmp Condition.compare where
  eq_swap := (Bytes.compare_swap _ _).symm
  isLE_trans := Bytes.le_trans

instance : Std.LawfulEqCmp Condition.compare where
  compare_self := Bytes.compare_self _
  eq_of_compare h := encode_injective (compare_eq_eq_iff.mp h)

/-- No encoding starts with that of another condition. -/
theorem eq_of_prefix_encode {a b : Condition} (h : a.encode <+: b.encode) : a = b := by
  obtain ⟨rest, hrest⟩ := h
  rw [← List.append_nil b.encode] at hrest
  exact (encode_append_inj hrest).1

/-! ## Sorting -/

theorem sort_perm (cs : List Condition) : (sort cs).Perm cs := Bytes.sortOn_perm cs

theorem pairwise_sort (cs : List Condition) :
    (sort cs).Pairwise fun a b ↦ (a.compare b).isLE = true :=
  Bytes.pairwise_sortOn cs

/-- The same conditions have one arrangement in order. -/
theorem eq_of_perm_of_pairwise {cs ds : List Condition} (h : cs.Perm ds)
    (hcs : cs.Pairwise fun a b ↦ (a.compare b).isLE = true)
    (hds : ds.Pairwise fun a b ↦ (a.compare b).isLE = true) : cs = ds := by
  refine h.eq_of_pairwise (fun a b _ _ hab hba ↦ ?_) hcs hds
  exact Std.LawfulEqCmp.eq_of_compare (Std.OrientedCmp.isLE_antisymm hab hba)

theorem sort_eq_of_perm {cs ds : List Condition} (h : cs.Perm ds) : sort cs = sort ds :=
  Bytes.sortOn_eq_of_perm (fun _ _ _ _ heq ↦ encode_injective heq) h

theorem sortedEncodings_eq_map_sort (cs : List Condition) :
    sortedEncodings cs = (sort cs).map encode :=
  (map_sortBy Bytes.le encode cs).symm

/-- **Equality and order of conditions are those of their encodings.** -/
theorem order_of_encodings :
    (∀ a b : Condition,
        ((a == b) = true ↔ a.encode = b.encode) ∧ ((a == b) = true ↔ a.compare b = .eq))
      ∧ (∀ a b : Condition, a.compare b = (b.compare a).swap)
      ∧ (∀ a b : Condition, (a.compare b).isLE ∨ (b.compare a).isLE)
      ∧ (∀ a b : Condition, (a.compare b).isLE → (b.compare a).isLE → a = b)
      ∧ (∀ a b c : Condition, (a.compare b).isLE → (b.compare c).isLE → (a.compare c).isLE)
      ∧ (∀ a b : Condition, a ≠ b → ¬ a.encode <+: b.encode)
      ∧ (∀ cs : List Condition, (sort cs).Perm cs
          ∧ (sort cs).Pairwise (fun a b ↦ (a.compare b).isLE)
          ∧ (sort cs).map encode = sortedEncodings cs)
      ∧ ∀ cs ds : List Condition, cs.Perm ds →
          sort cs = sort ds ∧ sortedEncodings cs = sortedEncodings ds
            ∧ (ds.Pairwise (fun a b ↦ (a.compare b).isLE) → ds.map encode = sortedEncodings cs) := by
  refine ⟨fun a b ↦ ⟨?_, ?_⟩, ?_, ?_, ?_, ?_, ?_, ?_, ?_⟩
  · rw [beq_iff_eq]
    exact encode_injective.eq_iff.symm
  · rw [beq_iff_eq]
    exact Std.LawfulEqCmp.compare_eq_iff_eq.symm
  · intro a b
    exact Std.OrientedCmp.eq_swap
  · intro a b
    exact Bytes.le_total a.encode b.encode
  · intro a b hab hba
    exact Std.LawfulEqCmp.eq_of_compare (Std.OrientedCmp.isLE_antisymm hab hba)
  · intro a b c hab hbc
    exact Std.TransCmp.isLE_trans hab hbc
  · intro a b hne h
    exact hne (eq_of_prefix_encode h)
  · intro cs
    exact ⟨sort_perm cs, pairwise_sort cs, (sortedEncodings_eq_map_sort cs).symm⟩
  · intro cs ds h
    refine ⟨sort_eq_of_perm h, sortedEncodings_eq_of_perm h, fun hds ↦ ?_⟩
    -- A list that is in order is the one that sorting gives.
    have hsort := eq_of_perm_of_pairwise ((sort_perm cs).trans h) (pairwise_sort cs) hds
    rw [sortedEncodings_eq_map_sort, hsort]

/-- Three preimages: the digests decide, for kinds and lengths agree. -/
theorem order_of_preimages :
    ((ofPreimage [1]).compare (ofPreimage [])).isLE
      ∧ ¬ (ofPreimage [1]).encode <+: (ofPreimage [2]).encode
      ∧ sortedEncodings [ofPreimage [2], ofPreimage [1]]
          = sortedEncodings [ofPreimage [1], ofPreimage [2]]
      ∧ [ofPreimage [1], ofPreimage [2]].map encode
          = sortedEncodings [ofPreimage [2], ofPreimage [1]] := by
  obtain ⟨-, -, -, -, htrans, hprefix, -, hsort⟩ := order_of_encodings
  have hperm : [ofPreimage [2], ofPreimage [1]].Perm [ofPreimage [1], ofPreimage [2]] := .swap _ _ _
  obtain ⟨-, hencodings, hsorted⟩ := hsort _ _ hperm
  refine ⟨?_, hprefix _ _ (by decide +kernel), hencodings, hsorted (by decide +kernel)⟩
  exact htrans _ (ofPreimage [2]) _ (by decide +kernel) (by decide +kernel)

end Hashlock.Condition
