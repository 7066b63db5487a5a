import Hashlock.Integer

/-!
# Writing tag, length and value

Lengths take the shortest definite form: one byte up to 127, and above that a byte that counts the
bytes of the length, followed by its magnitude.
-/

namespace Hashlock.Der

/-- The minimal definite form of a length. -/
def encodeLength (n : Nat) : Bytes :=
  if n < 0x80 then [UInt8.ofNat n]
  else
    let digits := Integer.ofNat n
    (0x80 ||| UInt8.ofNat digits.length) :: digits

/-- A value behind its tag and length. -/
def encodeTlv (tag : Tag) (value : Bytes) : Bytes :=
  tag.byte :: (encodeLength value.length ++ value)

end Hashlock.Der
