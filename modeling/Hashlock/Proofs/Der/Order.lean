import Hashlock.Proofs.Bytes.Order
import Hashlock.Proofs.Der.Tlv

/-!
# What the order of bytes makes of numbers and lengths

Byte strings are compared without knowing what they encode. Of two values under tags, in the short
form of a length, the tags decide first, then the lengths, then the values and what follows them
(`compare_encodeTlv_append`). For the content of integers that is the order of the numbers
(`compare_encode_ofNat`), though the bytes alone are not in that order: as bytes, 2 comes after 256.

## Shorter is less

Contents of one length are in the order of their numbers, with or without a zero byte in front. What
is left is that of two contents the shorter is that of the smaller number. Lengths do not change at
powers of 256, because a sign bit takes a byte in front of it; they change at the halves of these
(`Integer.length_encode_ofNat_le_iff`), and that is all that the order needs.
-/

namespace Hashlock

namespace Integer

/-! ## Contents of one length -/

/-- The leading digit decides over the others together. -/
theorem compare_mul_add {base x y v w : Nat} (hv : v < base) (hw : w < base) :
    compare (x * base + v) (y * base + w) = (compare x y).then (compare v w) := by
  rcases Nat.lt_trichotomy x y with hlt | rfl | hgt
  · have hstep : (x + 1) * base ≤ y * base := Nat.mul_le_mul_right _ hlt
    rw [Nat.add_mul, Nat.one_mul] at hstep
    rw [Nat.compare_eq_lt.mpr hlt, Nat.compare_eq_lt.mpr (by omega)]
    rfl
  · simp only [Nat.compare_eq_ite_lt, Nat.add_lt_add_iff_left, Nat.lt_irrefl, if_false,
      Ordering.eq_then]
  · have hstep : (y + 1) * base ≤ x * base := Nat.mul_le_mul_right _ hgt
    rw [Nat.add_mul, Nat.one_mul] at hstep
    rw [Nat.compare_eq_gt.mpr hgt, Nat.compare_eq_gt.mpr (by omega)]
    rfl

/-- Bytes of one length are in the order of the numbers that they denote. -/
theorem compare_eq_compare_value {a b : Bytes} (h : a.length = b.length) :
    Bytes.compare a b = compare (value a) (value b) := by
  induction a generalizing b with
  | nil =>
    obtain rfl := List.length_eq_zero_iff.mp h.symm
    rfl
  | cons x xs ih =>
    cases b with
    | nil => exact absurd h nofun
    | cons y ys =>
      have hlen : xs.length = ys.length := Nat.succ.inj h
      rw [Bytes.compare_cons, ih hlen, value_cons, value_cons, hlen,
        compare_mul_add (hlen ▸ value_lt xs) (value_lt ys)]

/-! ## Contents of different lengths -/

/-- The shorter content is that of the smaller number. -/
theorem lt_of_length_encode_lt {n n' : Nat}
    (h : (encode (ofNat n)).length < (encode (ofNat n')).length) : n < n' := by
  obtain ⟨k, hk⟩ := Nat.exists_eq_succ_of_ne_zero (Nat.ne_of_gt (length_encode_pos (ofNat n)))
  have hlt := length_encode_ofNat_le_iff.mp (Nat.le_of_eq hk)
  have hle := mt length_encode_ofNat_le_iff.mpr (Nat.not_le.mpr (hk ▸ h))
  omega

/-- **Contents of integers are in the order of the numbers**, as long as lengths come first. -/
theorem compare_encode_ofNat (n n' : Nat) :
    (compare (encode (ofNat n)).length (encode (ofNat n')).length).then
      (Bytes.compare (encode (ofNat n)) (encode (ofNat n'))) = compare n n' := by
  rcases Nat.lt_trichotomy (encode (ofNat n)).length (encode (ofNat n')).length
    with hlt | heq | hgt
  · rw [Nat.compare_eq_lt.mpr hlt, Nat.compare_eq_lt.mpr (lt_of_length_encode_lt hlt)]
    rfl
  · rw [Nat.compare_eq_eq.mpr heq, Ordering.eq_then, compare_eq_compare_value heq, value_encode,
      value_encode, value_ofNat, value_ofNat]
  · rw [Nat.compare_eq_gt.mpr hgt, Nat.compare_eq_gt.mpr (lt_of_length_encode_lt hgt)]
    rfl

end Integer

namespace Der

/-! ## Values under tags -/

/-- Tags decide first, then lengths, then values, and what follows decides at last. -/
theorem compare_encodeTlv_append {t t' : Tag} {value value' : Bytes}
    (h : value.length < 0x80) (h' : value'.length < 0x80) (rest rest' : Bytes) :
    Bytes.compare (encodeTlv t value ++ rest) (encodeTlv t' value' ++ rest')
      = (compare t.byte.toNat t'.byte.toNat).then
        ((compare value.length value'.length).then
          ((Bytes.compare value value').then (Bytes.compare rest rest'))) := by
  have hbyte : ∀ {n : Nat}, n < 0x80 → (UInt8.ofNat n).toNat = n := fun hn ↦
    UInt8.toNat_ofNat_of_lt' (Nat.lt_trans hn (by decide))
  rw [encodeTlv_of_lt h, encodeTlv_of_lt h', List.cons_append, List.cons_append, List.cons_append,
    List.cons_append, Bytes.compare_cons, Bytes.compare_cons, hbyte h, hbyte h']
  refine congrArg _ (Bytes.then_congr fun hlen ↦ ?_)
  exact Bytes.compare_append (Nat.compare_eq_eq.mp hlen) rest rest'

theorem compare_encodeTlv {t t' : Tag} {value value' : Bytes}
    (h : value.length < 0x80) (h' : value'.length < 0x80) :
    Bytes.compare (encodeTlv t value) (encodeTlv t' value')
      = (compare t.byte.toNat t'.byte.toNat).then
        ((compare value.length value'.length).then (Bytes.compare value value')) := by
  rw [← List.append_nil (encodeTlv t value), ← List.append_nil (encodeTlv t' value'),
    compare_encodeTlv_append h h', Bytes.compare_self, Ordering.then_eq]

end Der

end Hashlock
