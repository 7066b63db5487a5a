import Hashlock.Sorting

/-!
# Byte strings

Everything that travels is a list of bytes. This module gives the order on byte strings in which
encodings are sorted: unsigned and byte by byte, where a string comes before each of its
extensions.

The order is written out as a recursion of its own rather than taken from an `Ord` instance, so
that it means the same thing whatever other instances are in scope.
-/

namespace Hashlock

/-- A byte string. -/
abbrev Bytes := List UInt8

namespace Bytes

/-! ## The canonical order -/

/-- Lexicographic comparison of byte strings by unsigned byte; a string comes before each of its
proper extensions. -/
protected def compare : Bytes → Bytes → Ordering
  | [], [] => .eq
  | [], _ :: _ => .lt
  | _ :: _, [] => .gt
  | a :: as, b :: bs => if a < b then .lt else if b < a then .gt else Bytes.compare as bs

/-- Whether `a` may stand before `b` in a sorted list. -/
def le (a b : Bytes) : Bool := (Bytes.compare a b).isLE

@[simp] theorem compare_self (a : Bytes) : Bytes.compare a a = .eq := by
  induction a with
  | nil => rfl
  | cons x xs ih => simp [Bytes.compare, ih]

theorem eq_of_compare_eq {a b : Bytes} (h : Bytes.compare a b = .eq) : a = b := by
  induction a generalizing b with
  | nil => cases b <;> simp_all [Bytes.compare]
  | cons x xs ih =>
    cases b with
    | nil => simp [Bytes.compare] at h
    | cons y ys =>
      by_cases hxy : x < y
      · simp [Bytes.compare, hxy] at h
      · by_cases hyx : y < x
        · simp [Bytes.compare, hxy, hyx] at h
        · have hy : x = y := UInt8.le_antisymm (UInt8.not_lt.mp hyx) (UInt8.not_lt.mp hxy)
          rw [Bytes.compare, if_neg hxy, if_neg hyx] at h
          rw [hy, ih h]

/-- Two byte strings compare as equal exactly when they are equal. -/
theorem compare_eq_iff {a b : Bytes} : Bytes.compare a b = .eq ↔ a = b :=
  ⟨eq_of_compare_eq, fun h ↦ h ▸ compare_self a⟩

/-- Sort values by the canonical order of their keys. Values with equal keys keep their order. -/
def sortOn (key : α → Bytes) (xs : List α) : List α := sortBy (fun a b ↦ le (key a) (key b)) xs

/-! ## Text as bytes -/

/-- The UTF-8 bytes of a text. -/
def ofText (s : String) : Bytes := s.toList.flatMap String.utf8EncodeChar

end Bytes

end Hashlock
