import Hashlock.Cost
import Mathlib.Algebra.Ring.Nat
import Mathlib.Data.List.Perm.Subperm
import Mathlib.Order.Bounds.Defs

/-!
# Exact costs

Costs are added word by word, and each step may find that its sum does not fit. Taken together the
steps say no more than the last one: where the exact sum fits, so does every sum on the way to it.
So `Cost.prefixed?` and `Cost.threshold?` are exact sums over the natural numbers that are cut off
once, at 2^64 (`prefixed?_eq`, `threshold?_eq`).

A threshold condition counts its largest branches only. `largest` adds them up; that is the greatest
sum that a choice of as many branches has (`isGreatest_largestSum`), whichever they are and whether
or not there are enough of them.
-/

namespace Hashlock.Cost

/-! ## Sums of words -/

theorem ofNat?_of_lt {n : Nat} (h : n < UInt64.size) : ofNat? n = some (UInt64.ofNat n) := if_pos h

/-- Adding to a sum that may not fit is adding exactly. -/
theorem ofNat?_bind_add? (n : Nat) (c : UInt64) :
    ((ofNat? n).bind fun a ↦ add? a c) = ofNat? (n + c.toNat) := by
  by_cases h : n < UInt64.size
  · rw [ofNat?_of_lt h, Option.bind_some, add?, UInt64.toNat_ofNat_of_lt' h]
  · rw [ofNat?_eq_none_iff.mpr (Nat.not_lt.mp h), Option.bind_none,
      ofNat?_eq_none_iff.mpr (by omega)]

theorem ofNat?_bind_ofNat?_bind_add? (n m : Nat) :
    ((ofNat? n).bind fun a ↦ (ofNat? m).bind fun b ↦ add? a b) = ofNat? (n + m) := by
  by_cases h : m < UInt64.size
  · simp only [ofNat?_of_lt h, Option.bind_some]
    rw [ofNat?_bind_add?, UInt64.toNat_ofNat_of_lt' h]
  · simp only [ofNat?_eq_none_iff.mpr (Nat.not_lt.mp h), Option.bind_none, Option.bind_fun_none]
    exact (ofNat?_eq_none_iff.mpr (by omega)).symm

/-- A sum that is taken step by step, from a start that may not fit itself. -/
theorem ofNat?_bind_foldlM_add? (n : Nat) (costs : List UInt64) :
    ((ofNat? n).bind fun a ↦ costs.foldlM add? a) = ofNat? (n + (costs.map UInt64.toNat).sum) := by
  induction costs generalizing n with
  | nil => exact Option.bind_fun_some _
  | cons c costs ih =>
    simp only [List.foldlM_cons, Option.bind_eq_bind]
    rw [← Option.bind_assoc, ofNat?_bind_add?, ih, List.map_cons, List.sum_cons, Nat.add_assoc]

/-- **The cost of a prefix condition is an exact sum.** -/
theorem prefixed?_eq (prefixLength : Nat) (maxMessageLength nested : UInt64) :
    prefixed? prefixLength maxMessageLength nested
      = ofNat? (prefixLength + maxMessageLength.toNat + nested.toNat
          + compoundOverhead.toNat) := by
  simp only [prefixed?, Option.bind_eq_bind]
  rw [← Option.bind_assoc, ofNat?_bind_add?, ← Option.bind_assoc, ofNat?_bind_add?,
    ofNat?_bind_add?]

/-! ## The largest numbers -/

/-- What choices of `count` members of a list add up to. What is listed more than once can be chosen
as often. -/
def choiceSums (count : Nat) (ns : List Nat) : Set Nat :=
  {total | ∃ chosen : List Nat, chosen.Subperm ns ∧ chosen.length = count ∧ chosen.sum = total}

/-- The sum of the `k` largest numbers of a list, or of all if there are fewer. -/
def largestSum (k : Nat) (ns : List Nat) : Nat := ((sortBy (fun a b ↦ b ≤ a) ns).take k).sum

theorem pairwise_sortBy_ge (ns : List Nat) :
    (sortBy (fun a b ↦ b ≤ a) ns).Pairwise (fun a b ↦ b ≤ a) := by
  have hsorted : (sortBy (fun a b ↦ b ≤ a) ns).Pairwise (fun a b ↦ decide (b ≤ a)) := by
    apply pairwise_sortBy
    · intro a b c hab hbc
      exact decide_eq_true (Nat.le_trans (of_decide_eq_true hbc) (of_decide_eq_true hab))
    · intro a b
      exact (Nat.le_total b a).imp decide_eq_true decide_eq_true
  exact hsorted.imp of_decide_eq_true

/-- The largest numbers do not depend on how the list is arranged. -/
theorem largestSum_eq_of_perm (k : Nat) {ns ns' : List Nat} (h : ns.Perm ns') :
    largestSum k ns = largestSum k ns' := by
  have hperm := (sortBy_perm (fun a b ↦ b ≤ a) ns).trans
    (h.trans (sortBy_perm (fun a b ↦ b ≤ a) ns').symm)
  have hsorted := hperm.eq_of_pairwise (fun a b _ _ hab hba ↦ Nat.le_antisymm hba hab)
    (pairwise_sortBy_ge ns) (pairwise_sortBy_ge ns')
  rw [largestSum, hsorted, ← largestSum]

/-- From a list in descending order, no members add up to more than as many from its front. -/
theorem sum_le_sum_take {k : Nat} {chosen ns : List Nat} (hsorted : ns.Pairwise (fun a b ↦ b ≤ a))
    (h : chosen.Sublist ns) (hk : chosen.length ≤ k) : chosen.sum ≤ (ns.take k).sum := by
  induction ns generalizing k chosen with
  | nil =>
    obtain rfl := List.sublist_nil.mp h
    exact Nat.zero_le _
  | cons n ns ih =>
    obtain ⟨hn, hns⟩ := List.pairwise_cons.mp hsorted
    rcases chosen with - | ⟨m, chosen⟩
    · exact Nat.zero_le _
    rcases k with - | k
    · exact absurd hk (Nat.not_succ_le_zero _)
    -- Whatever is chosen first, the head of the list is no smaller.
    have hm : m ≤ n := by
      rcases List.mem_cons.mp (h.subset List.mem_cons_self) with rfl | hm
      · exact Nat.le_refl _
      · exact hn m hm
    have hrest := ih hns h.tail (Nat.le_of_succ_le_succ hk)
    rw [List.take_succ_cons, List.sum_cons, List.sum_cons]
    exact Nat.add_le_add hm hrest

/-- No choice of `k` numbers adds up to more than the largest do. -/
theorem sum_le_largestSum {k : Nat} {chosen ns : List Nat} (h : chosen.Subperm ns)
    (hk : chosen.length ≤ k) : chosen.sum ≤ largestSum k ns := by
  obtain ⟨chosen', hperm, hsub⟩ := h.trans (sortBy_perm (fun a b ↦ b ≤ a) ns).symm.subperm
  rw [← hperm.sum_nat, largestSum]
  exact sum_le_sum_take (pairwise_sortBy_ge ns) hsub (hperm.length_eq ▸ hk)

/-- **The largest numbers are the best choice**, and they are one. -/
theorem isGreatest_largestSum (k : Nat) (ns : List Nat) :
    IsGreatest (choiceSums (min k ns.length) ns) (largestSum k ns) := by
  constructor
  · refine ⟨(sortBy (fun a b ↦ b ≤ a) ns).take k, ?_, ?_, rfl⟩
    · exact (List.take_sublist _ _).subperm.trans (sortBy_perm _ ns).subperm
    · rw [List.length_take, length_sortBy]
  · rintro total ⟨chosen, hchosen, hlen, rfl⟩
    exact sum_le_largestSum hchosen (hlen ▸ Nat.min_le_left _ _)

/-- A single number is no more than the largest, if any is counted. -/
theorem le_largestSum {k n : Nat} {ns : List Nat} (h : n ∈ ns) (hk : k ≠ 0) :
    n ≤ largestSum k ns :=
  sum_le_largestSum (List.singleton_subperm_iff.mpr h) (Nat.one_le_iff_ne_zero.mpr hk)

/-! ## The largest costs -/

/-- The exact sum of the `k` largest costs. -/
def largest (k : Nat) (costs : List UInt64) : Nat :=
  (((sortBy (fun a b ↦ b ≤ a) costs).take k).map UInt64.toNat).sum

/-- Words are sorted like the numbers that they stand for. -/
theorem largest_eq_largestSum (k : Nat) (costs : List UInt64) :
    largest k costs = largestSum k (costs.map UInt64.toNat) := by
  have hle : (fun a b : UInt64 ↦ decide (b ≤ a)) = fun a b ↦ decide (b.toNat ≤ a.toNat) :=
    funext fun a ↦ funext fun b ↦ decide_eq_decide.mpr UInt64.le_iff_toNat_le
  rw [largest, largestSum, hle, List.map_take, map_sortBy (fun a b : Nat ↦ decide (b ≤ a))]

/-- **The cost of a threshold condition is an exact sum.** -/
theorem threshold?_eq (k : Nat) (costs : List UInt64) :
    threshold? k costs = ofNat? (largest k costs + compoundOverhead.toNat * costs.length) := by
  have hlargest := ofNat?_bind_foldlM_add? 0 ((sortBy (fun a b ↦ b ≤ a) costs).take k)
  rw [ofNat?_of_lt (by decide), Option.bind_some, Nat.zero_add, ← largest] at hlargest
  simp only [threshold?, Option.bind_eq_bind]
  exact (congrArg (Option.bind · _) hlargest).trans (ofNat?_bind_ofNat?_bind_add? _ _)

theorem threshold?_eq_of_perm (k : Nat) {costs costs' : List UInt64} (h : costs.Perm costs') :
    threshold? k costs = threshold? k costs' := by
  rw [threshold?_eq, threshold?_eq, largest_eq_largestSum, largest_eq_largestSum,
    largestSum_eq_of_perm k (h.map UInt64.toNat), h.length_eq]

/-- **No choice of `k` costs adds up to more than the largest do.** -/
theorem sum_le_largest {k : Nat} {chosen costs : List UInt64} (h : chosen.Subperm costs)
    (hk : chosen.length ≤ k) : (chosen.map UInt64.toNat).sum ≤ largest k costs := by
  rw [largest_eq_largestSum]
  exact sum_le_largestSum (h.map fun _ _ ↦ UInt64.toNat_inj.mp) (by rwa [List.length_map])

/-- A single cost is no more than the largest, if any is counted. -/
theorem toNat_le_largest {k : Nat} {c : UInt64} {costs : List UInt64} (h : c ∈ costs)
    (hk : k ≠ 0) : c.toNat ≤ largest k costs :=
  sum_le_largest (List.singleton_subperm_iff.mpr h) (Nat.one_le_iff_ne_zero.mpr hk)

end Hashlock.Cost
