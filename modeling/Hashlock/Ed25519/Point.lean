import Hashlock.Ed25519.Field
import Hashlock.Integer

/-!
# Points of the curve

The twisted Edwards curve `-x^2 + y^2 = 1 + d x^2 y^2`. Points are held in extended coordinates,
where `x = X / Z`, `y = Y / Z` and `x y = T / Z`: addition then needs no division and one formula
serves for every pair of points, equal ones and the neutral one included.

A point is written as the 255 bits of `y`, lowest byte first, and the lowest bit of `x` in the bit
that is left. Reading takes `y` modulo the prime, so that numbers from the prime on are read too,
and accepts the sign bit on `x = 0`.
-/

namespace Hashlock.Ed25519

/-- A point in extended coordinates. -/
structure Point where
  (x y z t : Field)

/-- The constant `-121665 / 121666` of the curve equation. -/
def curveConstant : Field := -(Field.ofNat 121665) * (Field.ofNat 121666).inverse

/-- Twice the constant of the curve equation. -/
def doubledCurveConstant : Field := curveConstant + curveConstant

namespace Point

/-- The neutral point. -/
def neutral : Point := ⟨Field.ofNat 0, Field.ofNat 1, Field.ofNat 1, Field.ofNat 0⟩

/-- The point with given affine coordinates. -/
def ofAffine (x y : Field) : Point := ⟨x, y, Field.ofNat 1, x * y⟩

/-- Addition of points. -/
def add (p q : Point) : Point :=
  let a := (p.y - p.x) * (q.y - q.x)
  let b := (p.y + p.x) * (q.y + q.x)
  let c := doubledCurveConstant * p.t * q.t
  let d := (p.z + p.z) * q.z
  let e := b - a
  let f := d - c
  let g := d + c
  let h := b + a
  ⟨e * f, g * h, f * g, e * h⟩

/-- The opposite of a point. -/
def neg (p : Point) : Point := ⟨-p.x, p.y, p.z, -p.t⟩

/-- A multiple of a point. -/
def mul (n : Nat) (p : Point) : Point := power add neutral p n

/-- The weight of the bit that holds the sign of `x`. -/
def signWeight : Nat := 1 <<< 255

/-- The 32 bytes of a point. -/
def encode (p : Point) : Bytes :=
  let zInverse := p.z.inverse
  let x := p.x * zInverse
  let y := p.y * zInverse
  Integer.littleEndian 32 (y.val + if x.isOdd then signWeight else 0)

@[simp] theorem length_encode (p : Point) : p.encode.length = 32 := by simp [encode]

/-- The point that a little-endian number of 256 bits stands for, if there is one. -/
def decode? (encoded : Bytes) : Option Point := do
  let n := Integer.value encoded.reverse
  let y := Field.ofNat (n % signWeight)
  let ySquare := y * y
  let x ← Field.sqrtRatio? (ySquare - Field.ofNat 1) (curveConstant * ySquare + Field.ofNat 1)
  let sign : Bool := signWeight ≤ n
  return ofAffine (if x.isOdd = sign then x else -x) y

/-- The base point: the one with `y = 4 / 5` and even `x`. -/
def base : Point :=
  ofAffine (Field.ofNat 0x216936d3cd6e53fec0a4e231fdd6dc5c692cc7609525a7b2c9562d608f25d51a)
    (Field.ofNat 0x6666666666666666666666666666666666666666666666666666666666666658)

end Point

end Hashlock.Ed25519
