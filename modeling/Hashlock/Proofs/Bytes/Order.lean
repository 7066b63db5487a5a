import Hashlock.Bytes
import Hashlock.Sorting

/-!
# The canonical order is a linear order

Comparing the other way round gives the opposite result (`compare_swap`), and what comes before
something comes before all that follows it (`le_trans`). With that `Bytes.le` is total, transitive
and antisymmetric, so that sorting by a key gives a sorted list (`pairwise_sortOn`) and leaves a list
alone that a reader has found to be in order (`sortOn_eq_self`). Nothing here knows what the keys
are; the encodings of conditions and of fulfillments both come through these statements.
-/

namespace Hashlock.Bytes

/-! ## The order -/

@[simp] theorem nil_le (a : Bytes) : le [] a = true := by
  cases a <;> rfl

@[simp] theorem not_cons_le_nil (x : UInt8) (xs : Bytes) : le (x :: xs) [] = false := rfl

/-- The first bytes decide, unless they are equal. -/
theorem cons_le_cons_iff {x y : UInt8} {xs ys : Bytes} :
    le (x :: xs) (y :: ys) = true ↔ x < y ∨ x = y ∧ le xs ys = true := by
  rw [le, Bytes.compare]
  by_cases hxy : x < y
  · rw [if_pos hxy]
    exact ⟨fun _ ↦ Or.inl hxy, fun _ ↦ rfl⟩
  · rw [if_neg hxy]
    by_cases hyx : y < x
    · rw [if_pos hyx]
      refine ⟨fun h ↦ absurd h (by decide), ?_⟩
      rintro (h | ⟨rfl, -⟩)
      · exact absurd h hxy
      · exact absurd hyx (UInt8.lt_irrefl _)
    · rw [if_neg hyx]
      have heq : x = y := UInt8.le_antisymm (UInt8.not_lt.mp hyx) (UInt8.not_lt.mp hxy)
      exact ⟨fun h ↦ Or.inr ⟨heq, h⟩, fun h ↦ (h.resolve_left hxy).2⟩

/-- Comparing the other way round gives the opposite result. -/
theorem compare_swap (a b : Bytes) : (Bytes.compare a b).swap = Bytes.compare b a := by
  induction a generalizing b with
  | nil => cases b <;> rfl
  | cons x xs ih =>
    cases b with
    | nil => rfl
    | cons y ys =>
      rw [Bytes.compare, Bytes.compare]
      by_cases hxy : x < y
      · rw [if_pos hxy, if_neg (UInt8.lt_asymm hxy), if_pos hxy]
        rfl
      · by_cases hyx : y < x
        · rw [if_neg hxy, if_pos hyx, if_pos hyx]
          rfl
        · rw [if_neg hxy, if_neg hyx, if_neg hyx, if_neg hxy]
          exact ih ys

theorem le_total (a b : Bytes) : le a b = true ∨ le b a = true := by
  rw [le, le, ← compare_swap a b]
  cases Bytes.compare a b <;> decide

theorem le_trans {a b c : Bytes} (hab : le a b = true) (hbc : le b c = true) :
    le a c = true := by
  induction a generalizing b c with
  | nil => exact nil_le c
  | cons x xs ih =>
    cases b with
    | nil => exact absurd hab (by simp)
    | cons y ys =>
      cases c with
      | nil => exact absurd hbc (by simp)
      | cons z zs =>
        rw [cons_le_cons_iff] at hab hbc ⊢
        rcases hab with hxy | ⟨rfl, hxs⟩
        · rcases hbc with hyz | ⟨rfl, -⟩
          · exact Or.inl (UInt8.lt_trans hxy hyz)
          · exact Or.inl hxy
        · rcases hbc with hyz | ⟨rfl, hys⟩
          · exact Or.inl hyz
          · exact Or.inr ⟨rfl, ih hxs hys⟩

theorem le_antisymm {a b : Bytes} (hab : le a b = true) (hba : le b a = true) : a = b := by
  rw [le, ← compare_swap a b] at hba
  exact eq_of_compare_eq (Ordering.eq_eq_of_isLE_of_isLE_swap hab hba)

instance : Std.TransCmp Bytes.compare where
  eq_swap := (compare_swap _ _).symm
  isLE_trans := le_trans

instance : Std.LawfulEqCmp Bytes.compare where
  compare_self := compare_self _
  eq_of_compare := eq_of_compare_eq

/-- What a reader of a set refuses is exactly a member that may not follow the one before it. -/
theorem compare_eq_gt_iff {a b : Bytes} : Bytes.compare a b = .gt ↔ ¬ le a b = true := by
  rw [le]
  cases Bytes.compare a b <;> decide

/-! ## Part by part -/

/-- What follows a comparison only matters where there is a tie. -/
theorem then_congr {o p q : Ordering} (h : o = .eq → p = q) : o.then p = o.then q := by
  cases o with
  | eq => exact h rfl
  | lt | gt => rfl

theorem compare_cons (x y : UInt8) (xs ys : Bytes) :
    Bytes.compare (x :: xs) (y :: ys)
      = (compare x.toNat y.toNat).then (Bytes.compare xs ys) := by
  simp only [Bytes.compare, Nat.compare_eq_ite_lt, UInt8.lt_iff_toNat_lt]
  split
  · rfl
  · split <;> rfl

/-- Parts of equal length are compared one after the other. -/
theorem compare_append {a b : Bytes} (h : a.length = b.length) (s t : Bytes) :
    Bytes.compare (a ++ s) (b ++ t) = (Bytes.compare a b).then (Bytes.compare s t) := by
  induction a generalizing b with
  | nil =>
    obtain rfl := List.length_eq_zero_iff.mp h.symm
    rfl
  | cons x xs ih =>
    cases b with
    | nil => exact absurd h nofun
    | cons y ys =>
      rw [List.cons_append, List.cons_append, compare_cons, compare_cons, ih (Nat.succ.inj h),
        Ordering.then_assoc]

/-! ## Adjacent pairs -/

/-- Somewhere in a list a byte string stands right in front of one that sorts before it. -/
def Descends (bss : List Bytes) : Prop :=
  ∃ before a b after, bss = before ++ a :: b :: after ∧ Bytes.compare a b = .gt

theorem descends_cons {bss : List Bytes} (a : Bytes) (h : Descends bss) : Descends (a :: bss) := by
  obtain ⟨before, b, c, after, rfl, hgt⟩ := h
  exact ⟨a :: before, b, c, after, rfl, hgt⟩

/-- A list that is out of order is so at two neighbours. -/
theorem descends_iff {bss : List Bytes} :
    Descends bss ↔ ¬ bss.Pairwise fun a b ↦ le a b = true := by
  constructor
  · rintro ⟨before, a, b, after, rfl, hgt⟩ hsorted
    obtain ⟨-, hsorted, -⟩ := List.pairwise_append.mp hsorted
    exact compare_eq_gt_iff.mp hgt (List.rel_of_pairwise_cons hsorted List.mem_cons_self)
  · intro h
    induction bss with
    | nil => exact absurd List.Pairwise.nil h
    | cons a bss ih =>
      by_cases htail : bss.Pairwise fun a b ↦ le a b = true
      · cases bss with
        | nil => exact absurd (List.pairwise_singleton _ _) h
        | cons b bss =>
          refine ⟨[], a, b, bss, rfl, compare_eq_gt_iff.mpr fun hab ↦ h ?_⟩
          -- What is below the first of a list in order is below all of it.
          refine List.pairwise_cons.mpr ⟨fun c hc ↦ ?_, htail⟩
          rcases List.mem_cons.mp hc with rfl | hc
          · exact hab
          · exact le_trans hab (List.rel_of_pairwise_cons htail hc)
      · exact descends_cons a (ih htail)

theorem descends_map_iff {key : α → Bytes} {xs : List α} :
    Descends (xs.map key) ↔ ¬ xs.Pairwise fun a b ↦ le (key a) (key b) = true := by
  rw [descends_iff, List.pairwise_map]

instance : DecidablePred Descends := fun _ ↦ decidable_of_iff _ descends_iff.symm

/-! ## Sorting by a key -/

section Sorting

variable {key : α → Bytes}

theorem pairwise_sortOn (xs : List α) :
    (sortOn key xs).Pairwise fun a b ↦ le (key a) (key b) = true := by
  refine pairwise_sortBy ?_ ?_ xs
  · intro a b c hab hbc
    exact le_trans hab hbc
  · intro a b
    exact le_total (key a) (key b)

theorem sortOn_eq_self {xs : List α}
    (h : xs.Pairwise fun a b ↦ le (key a) (key b) = true) : sortOn key xs = xs :=
  sortBy_eq_self h

theorem sortOn_perm (xs : List α) : (sortOn key xs).Perm xs :=
  sortBy_perm _ xs

@[simp] theorem length_sortOn (xs : List α) : (sortOn key xs).length = xs.length :=
  length_sortBy _ xs

/-- Values that their keys tell apart have one arrangement in order. -/
theorem sortOn_eq_of_perm {xs ys : List α} (hkey : ∀ a ∈ xs, ∀ b ∈ xs, key a = key b → a = b)
    (h : xs.Perm ys) : sortOn key xs = sortOn key ys := by
  refine sortBy_eq_of_perm ?_ ?_ ?_ h
  · intro a b c hab hbc
    exact le_trans hab hbc
  · intro a b
    exact le_total (key a) (key b)
  · intro a ha b hb hab hba
    exact hkey a ha b hb (le_antisymm hab hba)

/-- Byte strings in order do not tell in which order they were given. -/
theorem sortBy_le_eq_of_perm {xs ys : List Bytes} (h : xs.Perm ys) :
    sortBy le xs = sortBy le ys :=
  (sortOn_eq_of_perm (fun _ _ _ _ heq ↦ heq) h : sortOn id xs = sortOn id ys)

/-- Keys in order do not tell in which order the values were given. -/
theorem map_sortOn_eq_of_perm {xs ys : List α} (h : xs.Perm ys) :
    (sortOn key xs).map key = (sortOn key ys).map key := by
  rw [sortOn, sortOn, map_sortBy, map_sortBy]
  exact sortBy_le_eq_of_perm (h.map key)

theorem mem_sortOn {xs : List α} {a : α} : a ∈ sortOn key xs ↔ a ∈ xs :=
  (sortOn_perm xs).mem_iff

end Sorting

end Hashlock.Bytes
