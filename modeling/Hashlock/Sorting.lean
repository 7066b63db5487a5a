/-!
# Stable sorting

Insertion sort by a Boolean order, from the back of the list: it is stable, does one comparison a
member on lists that are sorted already, and evaluates by structural recursion alone.

The main statements say that sorting permutes (`sortBy_perm`), that it sorts where the order is
total and transitive (`pairwise_sortBy`), that it leaves sorted lists alone (`sortBy_eq_self`), and
that the arrangement of its input does not count (`sortBy_eq_of_perm`).
-/

namespace Hashlock

/-- Put a value in front of the first member that may follow it. -/
def insertSorted (le : α → α → Bool) (x : α) : List α → List α
  | [] => [x]
  | y :: ys => if le x y then x :: y :: ys else y :: insertSorted le x ys

/-- Sort a list. Members that may stand in either order keep the order they have. -/
def sortBy (le : α → α → Bool) (xs : List α) : List α := xs.foldr (insertSorted le) []

@[simp] theorem sortBy_nil (le : α → α → Bool) : sortBy le [] = [] := rfl

@[simp] theorem sortBy_cons (le : α → α → Bool) (x : α) (xs : List α) :
    sortBy le (x :: xs) = insertSorted le x (sortBy le xs) := rfl

/-! ## Members -/

theorem insertSorted_perm (le : α → α → Bool) (x : α) (xs : List α) :
    (insertSorted le x xs).Perm (x :: xs) := by
  induction xs with
  | nil => exact .refl _
  | cons y ys ih =>
    unfold insertSorted
    split
    · exact .refl _
    · exact (ih.cons y).trans (.swap x y ys)

/-- Sorting permutes. -/
theorem sortBy_perm (le : α → α → Bool) (xs : List α) : (sortBy le xs).Perm xs := by
  induction xs with
  | nil => exact .refl _
  | cons x xs ih => exact (insertSorted_perm le x _).trans (ih.cons x)

@[simp] theorem length_sortBy (le : α → α → Bool) (xs : List α) :
    (sortBy le xs).length = xs.length :=
  (sortBy_perm le xs).length_eq

/-! ## Order -/

section Order

variable {le : α → α → Bool}

theorem pairwise_insertSorted (trans : ∀ a b c, le a b → le b c → le a c)
    (total : ∀ a b, le a b ∨ le b a) (x : α) {xs : List α} (h : xs.Pairwise (le · ·)) :
    (insertSorted le x xs).Pairwise (le · ·) := by
  induction xs with
  | nil => exact List.pairwise_singleton _ _
  | cons y ys ih =>
    obtain ⟨hy, hys⟩ := List.pairwise_cons.mp h
    unfold insertSorted
    split
    · rename_i hxy
      refine List.pairwise_cons.mpr ⟨fun z hz ↦ ?_, h⟩
      rcases List.mem_cons.mp hz with rfl | hz
      · exact hxy
      · exact trans x y z hxy (hy z hz)
    · rename_i hxy
      refine List.pairwise_cons.mpr ⟨fun z hz ↦ ?_, ih hys⟩
      rcases List.mem_cons.mp ((insertSorted_perm le x ys).mem_iff.mp hz) with rfl | hz
      · exact (total z y).resolve_left hxy
      · exact hy z hz

/-- The result of sorting by a total, transitive order is sorted. -/
theorem pairwise_sortBy (trans : ∀ a b c, le a b → le b c → le a c)
    (total : ∀ a b, le a b ∨ le b a) (xs : List α) : (sortBy le xs).Pairwise (le · ·) := by
  induction xs with
  | nil => exact .nil
  | cons x xs ih => exact pairwise_insertSorted trans total x ih

/-- Sorting leaves a sorted list as it is. -/
theorem sortBy_eq_self {xs : List α} (h : xs.Pairwise (le · ·)) : sortBy le xs = xs := by
  induction xs with
  | nil => rfl
  | cons x xs ih =>
    obtain ⟨hx, hxs⟩ := List.pairwise_cons.mp h
    rw [sortBy_cons, ih hxs]
    cases xs with
    | nil => rfl
    | cons y ys => rw [insertSorted, if_pos (hx y List.mem_cons_self)]

/-- Where only equal members may stand in either order, sorting depends on the members alone. -/
theorem sortBy_eq_of_perm (trans : ∀ a b c, le a b → le b c → le a c)
    (total : ∀ a b, le a b ∨ le b a) {xs ys : List α}
    (antisymm : ∀ a ∈ xs, ∀ b ∈ xs, le a b → le b a → a = b) (h : xs.Perm ys) :
    sortBy le xs = sortBy le ys := by
  have hperm : (sortBy le xs).Perm (sortBy le ys) :=
    (sortBy_perm le xs).trans (h.trans (sortBy_perm le ys).symm)
  refine hperm.eq_of_pairwise ?_ (pairwise_sortBy trans total xs) (pairwise_sortBy trans total ys)
  intro a b ha hb
  have ha := (sortBy_perm le xs).mem_iff.mp ha
  have hb := h.mem_iff.mpr ((sortBy_perm le ys).mem_iff.mp hb)
  exact antisymm a ha b hb

end Order

/-! ## Keys -/

private theorem map_insertSorted (le : β → β → Bool) (key : α → β) (x : α) (xs : List α) :
    (insertSorted (fun a b ↦ le (key a) (key b)) x xs).map key
      = insertSorted le (key x) (xs.map key) := by
  induction xs with
  | nil => rfl
  | cons y ys ih =>
    rw [insertSorted, List.map_cons, insertSorted]
    split
    · rfl
    · rw [List.map_cons, ih]

/-- The keys of values sorted by key are the sorted keys. -/
theorem map_sortBy (le : β → β → Bool) (key : α → β) (xs : List α) :
    (sortBy (fun a b ↦ le (key a) (key b)) xs).map key = sortBy le (xs.map key) := by
  induction xs with
  | nil => rfl
  | cons x xs ih => rw [sortBy_cons, map_insertSorted, ih, List.map_cons, sortBy_cons]

end Hashlock
