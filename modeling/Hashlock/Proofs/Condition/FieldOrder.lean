import Hashlock.Proofs.Condition.Codec
import Hashlock.Proofs.Der.Order

/-!
# The order of conditions, field by field

The canonical order compares encodings, that is, bytes. What it makes of the conditions themselves
is a comparison of their fields one after the other, `Condition.compareFields`: the number of the
kind, the length of the encoding, the fingerprint, the cost as a number, and the bit string of the
subtypes (`compare_eq_compareFields`).

## Why the length of costs does no harm

The byte for the length of the cost stands in front of the cost, so a shorter cost sorts first, and
it is the smaller one. With the same length of the whole, a longer cost can go with shorter
subtypes. But where costs differ the subtypes are not looked at any more, and where they agree the
subtypes have the same length.
-/

namespace Hashlock

/-! ## Kinds -/

namespace Kind

theorem id_injective {j k : Kind} (h : j.id = k.id) : j = k :=
  Option.some.inj (by rw [← ofId?_id j, h, ofId?_id])

/-- Tags are in the order of the numbers of kinds. -/
theorem compare_tag (j k : Kind) :
    compare j.tag.byte.toNat k.tag.byte.toNat = compare j.id.toNat k.id.toNat := by
  cases j <;> cases k <;> rfl

end Kind

namespace Condition

open Der

/-! ## Lengths -/

theorem length_encode_eq (c : Condition) : c.encode.length = c.fields.length + 2 :=
  length_encodeTlv_of_lt c.fields_length_lt

/-- Whatever is behind a condition, its encoding has 39 bytes and up to twelve more. -/
theorem length_encode_bounds (c : Condition) : 39 ≤ c.encode.length ∧ c.encode.length ≤ 51 := by
  have hcost : 0 < (Integer.encodeUInt64 c.cost).length := Integer.length_encode_pos _
  have hcost' := Integer.length_encodeUInt64_le c.cost
  have hsubtypes := c.subtypes.length_encode_le
  rw [length_encode_eq, length_fields, length_subtypesField]
  split <;> omega

/-! ## Fields of one kind and length -/

/-- The fields of a condition, compared one after the other. -/
def compareFields (a b : Condition) : Ordering :=
  (compare a.kind.id.toNat b.kind.id.toNat).then <|
    (compare a.encode.length b.encode.length).then <|
      (Bytes.compare a.fingerprint.bytes b.fingerprint.bytes).then <|
        (compare a.cost.toNat b.cost.toNat).then <|
          Bytes.compare a.subtypes.encode b.subtypes.encode

variable {a b : Condition}

theorem compare_subtypesField (hkind : a.kind = b.kind)
    (hlength : (subtypesField a.kind a.subtypes).length
      = (subtypesField b.kind b.subtypes).length) :
    Bytes.compare (subtypesField a.kind a.subtypes) (subtypesField b.kind b.subtypes)
      = Bytes.compare a.subtypes.encode b.subtypes.encode := by
  have hsmall : ∀ s : KindSet, s.encode.length < 0x80 := fun s ↦
    Nat.lt_of_le_of_lt s.length_encode_le (by decide)
  rw [length_subtypesField, length_subtypesField, ← hkind] at hlength
  rw [subtypesField, subtypesField, ← hkind]
  cases hcompound : a.kind.isCompound with
  | true =>
    rw [hcompound, if_pos rfl, if_pos rfl, Nat.add_right_cancel_iff] at hlength
    rw [if_pos rfl, if_pos rfl, compare_encodeTlv (hsmall _) (hsmall _), hlength,
      Std.ReflOrd.compare_self, Std.ReflOrd.compare_self, Ordering.eq_then, Ordering.eq_then]
  | false =>
    rw [a.subtypes_of_simple hcompound, b.subtypes_of_simple (hkind ▸ hcompound)]
    rfl

/-- Of one kind and length, conditions are compared by what is in the fields. -/
theorem compare_fields (hkind : a.kind = b.kind) (hlength : a.fields.length = b.fields.length) :
    Bytes.compare a.fields b.fields
      = (Bytes.compare a.fingerprint.bytes b.fingerprint.bytes).then
        ((compare a.cost.toNat b.cost.toNat).then
          (Bytes.compare a.subtypes.encode b.subtypes.encode)) := by
  have hfingerprint : ∀ c : Condition, c.fingerprint.bytes.length = 32 :=
    fun c ↦ c.fingerprint.length_bytes
  have hsmall : ∀ c : Condition, c.fingerprint.bytes.length < 0x80 := fun c ↦ by
    rw [hfingerprint]
    decide
  have hcost : ∀ c : Condition, (Integer.encodeUInt64 c.cost).length < 0x80 := fun c ↦
    Nat.lt_of_le_of_lt (Integer.length_encodeUInt64_le c.cost) (by decide)
  rw [fields_eq, fields_eq, fieldsOf, fieldsOf, compare_encodeTlv_append (hsmall a) (hsmall b),
    compare_encodeTlv_append (hcost a) (hcost b), hfingerprint, hfingerprint]
  simp only [Std.ReflOrd.compare_self, Ordering.eq_then]
  refine congrArg (Ordering.then _) ?_
  rw [← Ordering.then_assoc, Integer.encodeUInt64, Integer.encodeUInt64,
    Integer.compare_encode_ofNat]
  refine Bytes.then_congr fun heq ↦ ?_
  -- With equal costs there is as much room for subtypes.
  refine compare_subtypesField hkind ?_
  rw [length_fields, length_fields, UInt64.toNat_inj.mp (Nat.compare_eq_eq.mp heq)] at hlength
  exact Nat.add_left_cancel hlength

/-! ## Main result -/

theorem compare_eq_compareFields (a b : Condition) : a.compare b = compareFields a b := by
  have hlength : compare a.encode.length b.encode.length
      = compare a.fields.length b.fields.length := by
    simp only [length_encode_eq, Nat.compare_eq_ite_lt, Nat.add_lt_add_iff_right]
  rw [Condition.compare, compareFields, encode, encode,
    compare_encodeTlv a.fields_length_lt b.fields_length_lt, Kind.compare_tag, ← encode,
    ← encode, hlength]
  refine Bytes.then_congr fun hkind ↦ Bytes.then_congr fun hfields ↦ ?_
  have hid : a.kind.id = b.kind.id := UInt8.toNat_inj.mp (Nat.compare_eq_eq.mp hkind)
  exact compare_fields (Kind.id_injective hid) (Nat.compare_eq_eq.mp hfields)

/-- **The canonical order is that of the fields**, and all encodings are of one small size. -/
theorem order_of_fields :
    (∀ a b : Condition, a.compare b = compareFields a b)
      ∧ ∀ c : Condition, 39 ≤ c.encode.length ∧ c.encode.length ≤ 51
        ∧ c.fields.length < 0x80
        ∧ c.encode = c.kind.tag.byte :: UInt8.ofNat c.fields.length :: c.fields := by
  refine ⟨compare_eq_compareFields, fun c ↦ ?_⟩
  obtain ⟨hmin, hmax⟩ := c.length_encode_bounds
  exact ⟨hmin, hmax, c.fields_length_lt, encodeTlv_of_lt c.fields_length_lt⟩

/-- A cost of two bytes with subtypes of one takes as much room as the other way round, and then the
costs decide. -/
example : (do
    let a ← ofParts .threshold (.digest []) 2 (.singleton .preimage)
    let b ← ofParts .threshold (.digest []) 256 ∅
    return (a.encode.length, b.encode.length, a.compare b)) = .ok (43, 43, .lt) := by
  decide +kernel

end Condition

end Hashlock
