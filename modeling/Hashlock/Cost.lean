import Hashlock.Sorting

/-!
# Costs

A cost bounds the work of checking a fulfillment. It is a 64-bit word; where a sum of costs does
not fit, there is no cost. Every sum is taken step by step, and each step checks that it fits:
where there is a result, it is the exact sum (`add?_eq_some_iff`).
-/

namespace Hashlock.Cost

/-- What a prefix condition adds, and what a threshold condition adds for each branch. -/
def compoundOverhead : UInt64 := 1024

/-- The cost of an Ed25519 condition. -/
def ed25519 : UInt64 := 131072

/-- A number as a word, if it fits. -/
def ofNat? (n : Nat) : Option UInt64 := if n < UInt64.size then some (UInt64.ofNat n) else none

/-- A word stands for a number exactly when it has that value. -/
theorem ofNat?_eq_some_iff {n : Nat} {c : UInt64} : ofNat? n = some c ↔ c.toNat = n := by
  constructor
  · intro h
    by_cases fits : n < UInt64.size
    · rw [ofNat?, if_pos fits, Option.some.injEq] at h
      rw [← h, UInt64.toNat_ofNat_of_lt' fits]
    · simp [ofNat?, fits] at h
  · rintro rfl
    rw [ofNat?, if_pos c.toNat_lt, UInt64.ofNat_toNat]

/-- Numbers of 2^64 and above, and no others, have no word. -/
theorem ofNat?_eq_none_iff {n : Nat} : ofNat? n = none ↔ UInt64.size ≤ n := by
  simp [ofNat?]

/-- The sum of two costs, if it fits. -/
def add? (a b : UInt64) : Option UInt64 := ofNat? (a.toNat + b.toNat)

/-- A sum of costs is the exact sum. -/
theorem add?_eq_some_iff {a b c : UInt64} : add? a b = some c ↔ c.toNat = a.toNat + b.toNat :=
  ofNat?_eq_some_iff

/-- The cost of an RSA condition: the square of the length of its modulus. -/
def rsa (modulusLength : UInt64) : UInt64 := modulusLength * modulusLength

/-- The cost of a prefix condition: the lengths of the prefix and of the longest message, the cost
of the nested condition, and the overhead. -/
def prefixed? (prefixLength : Nat) (maxMessageLength nested : UInt64) : Option UInt64 := do
  let message ← add? (← ofNat? prefixLength) maxMessageLength
  add? (← add? message nested) compoundOverhead

/-- The cost of a threshold condition: as many of the largest branch costs as the threshold says,
and the overhead for each branch. -/
def threshold? (threshold : Nat) (branches : List UInt64) : Option UInt64 := do
  let largest := (sortBy (fun a b ↦ b ≤ a) branches).take threshold
  let total ← largest.foldlM add? 0
  add? total (← ofNat? (compoundOverhead.toNat * branches.length))

end Hashlock.Cost
