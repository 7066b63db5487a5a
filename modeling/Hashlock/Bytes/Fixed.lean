import Hashlock.Bytes.Hex

/-!
# Byte strings of fixed length

Fingerprints, keys and signatures have a length that their type tells. Each of them extends
`FixedBytes`, which carries the proof.
-/

namespace Hashlock

/-- A byte string of length `n`. -/
structure FixedBytes (n : Nat) where
  /-- The bytes. -/
  bytes : Bytes
  length_bytes : bytes.length = n
deriving DecidableEq

namespace FixedBytes

variable {n : Nat}

/-- The given bytes, if there are `n` of them. -/
def ofBytes? (bs : Bytes) : Option (FixedBytes n) :=
  if h : bs.length = n then some ⟨bs, h⟩ else none

@[simp] theorem ofBytes?_bytes (b : FixedBytes n) : ofBytes? b.bytes = some b := by
  simp [ofBytes?, b.length_bytes]

@[simp] theorem ofBytes?_eq_none {bs : Bytes} :
    (ofBytes? bs : Option (FixedBytes n)) = none ↔ bs.length ≠ n := by
  simp [ofBytes?]

theorem ofBytes?_eq_some_iff {bs : Bytes} {b : FixedBytes n} :
    ofBytes? bs = some b ↔ bs = b.bytes := by
  rw [ofBytes?]
  constructor
  · intro h
    obtain ⟨_, h⟩ := Option.dite_none_right_eq_some.mp h
    rw [← Option.some.inj h]
  · rintro rfl
    exact dif_pos b.length_bytes

/-- All bytes in hexadecimal. -/
def toHex (b : FixedBytes n) : String := Hex.encode b.bytes

/-- The first eight bytes in hexadecimal, by which detailed texts tell values apart. -/
def shortHex (b : FixedBytes n) : String := Hex.encode (b.bytes.take 8)

end FixedBytes

end Hashlock
