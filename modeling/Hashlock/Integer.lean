import Hashlock.Error

/-!
# Non-negative integers as bytes

A number of any size is held as its minimal big-endian bytes, its *magnitude*: no leading zero
byte, and no byte at all for zero. The content of a DER integer is the magnitude in two's
complement: one zero byte is put in front when the first bit would otherwise read as a sign, and
zero itself is a single zero byte.

`value` gives the number that a byte string denotes, whatever its size, and `word` computes it in 64
bits; `bigEndian` and `littleEndian` write a number with a fixed count of bytes.
-/

namespace Hashlock.Integer

/-! ## Magnitudes -/

/-- The bytes from the first nonzero one on: the minimal form of the same number. -/
def magnitude (bs : Bytes) : Bytes := bs.dropWhile (· == 0)

/-- The number that big-endian bytes denote. -/
def value (bs : Bytes) : Nat := bs.foldl (fun n b ↦ n * 256 + b.toNat) 0

/-- The `k` low bytes of a number, the lowest first. -/
def littleEndian : (k : Nat) → Nat → Bytes
  | 0, _ => []
  | k + 1, n => UInt8.ofNat n :: littleEndian k (n / 256)

/-- The `k` low bytes of a number, the highest first. -/
def bigEndian (k n : Nat) : Bytes := (littleEndian k n).reverse

@[simp] theorem length_littleEndian (k n : Nat) : (littleEndian k n).length = k := by
  induction k generalizing n with
  | zero => rfl
  | succ k ih => simp [littleEndian, ih]

@[simp] theorem length_bigEndian (k n : Nat) : (bigEndian k n).length = k := by
  simp [bigEndian]

/-- The magnitude of a number: as many bytes as its binary digits fill. -/
def ofNat (n : Nat) : Bytes := if n = 0 then [] else bigEndian (n.log2 / 8 + 1) n

/-- The word into which bytes are shifted one by one, the highest first. What leaves it at the
high end is lost. -/
def word (bs : Bytes) : UInt64 := bs.foldl (fun (w : UInt64) b ↦ w <<< 8 ||| b.toUInt64) 0

/-- The 64-bit word that bytes denote, where leading zeros do not count. -/
def toUInt64 (bs : Bytes) : Except DecodeError UInt64 :=
  let digits := magnitude bs
  if digits.length > 8 then .error .integerOverflow else .ok (word digits)

/-! ## Content of DER integers -/

/-- Whether the first bit is set, which a DER integer reads as a minus sign. -/
def hasSignBit : Bytes → Bool
  | [] => false
  | b :: _ => b &&& 0x80 != 0

/-- The content of the DER integer with the value of `bs`. -/
def encode (bs : Bytes) : Bytes :=
  let digits := magnitude bs
  if digits.isEmpty || hasSignBit digits then 0 :: digits else digits

/-- The magnitude of a DER integer. Refused are content without bytes, negative integers, and a
zero byte in front that does not keep the next bit from reading as a sign. -/
def decode (content : Bytes) : Except DecodeError Bytes :=
  if hasSignBit content then .error .nonCanonicalInteger
  else match content with
    | [] => .error .nonCanonicalInteger
    | 0 :: digits =>
      if digits.isEmpty || hasSignBit digits then .ok digits else .error .nonCanonicalInteger
    | _ => .ok content

/-- The content of a DER integer for a word. -/
def encodeUInt64 (n : UInt64) : Bytes := encode (ofNat n.toNat)

/-- The word that a DER integer holds. -/
def decodeUInt64 (content : Bytes) : Except DecodeError UInt64 := do
  toUInt64 (← decode content)

end Hashlock.Integer
