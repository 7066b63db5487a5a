import Hashlock.Proofs.Der.LengthForm

/-!
# Input that ends too early

A value stands behind a header, its tag and its length. Where the input ends inside the header, the
reader does not know yet how much there should be; where it ends inside the value, it does and says
so (`cutError`, `tlv_fails_of_cut`). In both cases it is the input that is too short: no byte that
is missing could be told from any other, so nothing else is ever reported.

The number of digits in a long form is known before they are read, and it is held against the input
as a whole. That a length may have lost some of its digits is therefore never mistaken for a shorter
length.
-/

namespace Hashlock.Der

/-- The number of bytes in front of a value of `n` bytes. -/
def headerLength (n : Nat) : Nat := (encodeLength n).length + 1

/-- The error where a value of `n` bytes should be, and `k` bytes are there for header and value. -/
def cutError (n k : Nat) : DecodeError :=
  if k < headerLength n then .unexpectedEof else .lengthExceedsInput n (k - headerLength n)

/-- Some of the bytes of two parts are either not all of the first or the first and some of the
second. -/
theorem prefix_append_cases {α : Type} {p a b : List α} (h : p <+: a ++ b) :
    (p <+: a ∧ p.length < a.length) ∨ ∃ q, p = a ++ q ∧ q <+: b := by
  by_cases hlt : p.length < a.length
  · exact .inl ⟨List.prefix_of_prefix_length_le h (List.prefix_append a b) (Nat.le_of_lt hlt), hlt⟩
  · obtain ⟨q, rfl⟩ :=
      List.prefix_of_prefix_length_le (List.prefix_append a b) h (Nat.not_lt.mp hlt)
    exact .inr ⟨q, rfl, (List.prefix_append_right_inj a).mp h⟩

namespace Read

variable {r : Reader}

theorem byte_fails (h : r.unread = []) : Fails byte r .unexpectedEof :=
  ⟨r, by rw [byte, h]⟩

/-- Digits of a length are taken all together or not at all. -/
theorem longLength_fails {count : Nat} (hpos : count ≠ 0) (hfew : count ≤ 8)
    (hlt : r.remaining < count) : Fails (longLength count) r .unexpectedEof := by
  refine Fails.bind_of_ok (get_apply r) ?_
  rw [if_neg hpos, if_neg (Nat.not_lt.mpr hfew), if_pos hlt]
  exact fails_throw _ r

/-- A length is not known before its last digit. -/
theorem declaredLength_fails_of_cut {n : Nat} (hword : n < UInt64.size)
    (hcut : r.unread <+: encodeLength n) (hlt : r.unread.length < (encodeLength n).length) :
    Fails declaredLength r .unexpectedEof := by
  rw [encodeLength] at hcut hlt
  by_cases hshort : n < 0x80
  · rw [if_pos hshort, List.length_singleton, Nat.lt_one_iff] at hlt
    exact (byte_fails (List.length_eq_zero_iff.mp hlt)).bind _
  rw [if_neg hshort] at hcut hlt
  rcases List.prefix_cons_iff.mp hcut with hnil | ⟨digits, hunread, -⟩
  · exact (byte_fails hnil).bind _
  · have hcount : (Integer.ofNat n).length ≤ 8 := Integer.length_ofNat_le_iff.mpr hword
    obtain ⟨hmark, hcount'⟩ := and_longForm (Nat.lt_of_le_of_lt hcount (by decide))
    rw [hunread, List.length_cons, List.length_cons] at hlt
    have hlt := Nat.lt_of_succ_lt_succ hlt
    refine Fails.bind_of_ok (byte_eq_ok_iff.mpr ⟨digits, hunread, rfl⟩) ?_
    rw [if_neg hmark, hcount']
    exact longLength_fails (Nat.ne_zero_of_lt hlt) hcount hlt

/-- **A value that is cut off is missed for what is missing**, in the header or behind it. -/
theorem tlv_fails_of_cut {t : Tag} {value : Bytes} (hlong : t.isLong = false)
    (hmax : value.length ≤ r.maxLength.toNat) (hcut : r.unread <+: encodeTlv t value)
    (hne : r.unread ≠ encodeTlv t value) :
    Fails tlv r (cutError value.length r.unread.length) := by
  have hword : value.length < UInt64.size := Nat.lt_of_le_of_lt hmax r.maxLength.toNat_lt
  rcases List.prefix_cons_iff.mp hcut with hnil | ⟨p, hunread, hp⟩
  · rw [hnil, cutError, List.length_nil, if_pos (by rw [headerLength]; omega)]
    exact ((byte_fails hnil).bind _).bind _
  rw [hunread, cutError, headerLength, List.length_cons]
  rcases prefix_append_cases hp with ⟨hp, hlt⟩ | ⟨q, rfl, hq⟩
  · rw [if_pos (Nat.succ_lt_succ hlt)]
    have htag := tag_eq_ok_iff.mpr ⟨p, hunread, hlong, rfl⟩
    refine Fails.bind_of_ok htag (Fails.bind ?_ _)
    rw [length_eq]
    exact (declaredLength_fails_of_cut hword hp hlt).bind _
  · have hlt : q.length < value.length := by
      refine Nat.lt_of_le_of_ne hq.length_le fun hlen ↦ hne ?_
      rw [hunread, hq.eq_of_length hlen, encodeTlv]
    rw [if_neg (by rw [List.length_append]; omega), List.length_append, Nat.add_right_comm,
      Nat.add_sub_cancel_left]
    exact ⟨_, by rw [tlv_of_shortest hunread hlong hword, if_neg (Nat.not_lt.mpr hmax), if_pos hlt]⟩

end Read

end Hashlock.Der
