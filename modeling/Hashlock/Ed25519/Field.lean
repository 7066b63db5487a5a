import Hashlock.Arithmetic.Power

/-!
# The field of the curve

Residues modulo the prime `2^255 - 19`.
-/

namespace Hashlock.Ed25519

/-- The prime `2^255 - 19`. -/
def fieldPrime : Nat := (1 <<< 255) - 19

theorem fieldPrime_pos : 0 < fieldPrime := by decide

/-- A residue modulo the prime. -/
abbrev Field := Fin fieldPrime

namespace Field

/-- The residue of a number. -/
def ofNat (n : Nat) : Field := ⟨n % fieldPrime, Nat.mod_lt n fieldPrime_pos⟩

/-- A power of a residue. -/
def pow (x : Field) (n : Nat) : Field := power (· * ·) (ofNat 1) x n

/-- The multiplicative inverse; zero is sent to zero. -/
def inverse (x : Field) : Field := x.pow (fieldPrime - 2)

/-- A square root of minus one. -/
def rootOfMinusOne : Field := (ofNat 2).pow ((fieldPrime - 1) / 4)

/-- Whether the canonical representative is odd; of a nonzero residue and its opposite, one is. -/
def isOdd (x : Field) : Bool := x.val % 2 == 1

/-- A square root of `u / v`, if there is one. The candidate `u v^3 (u v^7)^((p - 5) / 8)` is right
up to a root of minus one whenever there is a root at all. -/
def sqrtRatio? (u v : Field) : Option Field :=
  let v3 := v * v * v
  let x := u * v3 * (u * v3 * v3 * v).pow ((fieldPrime - 5) / 8)
  let square := v * x * x
  if square = u then some x
  else if square = -u then some (x * rootOfMinusOne)
  else none

end Field

end Hashlock.Ed25519
