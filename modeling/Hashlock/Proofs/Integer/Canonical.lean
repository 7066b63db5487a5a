import Hashlock.Proofs.Integer
import Mathlib.Algebra.Ring.Int.Defs

/-!
# Canonical content of DER integers

The content of a DER integer is two's complement in as few bytes as possible. `signedValue` says what
content denotes, whether or not it is short, and `Canonical` is the rule; both stand apart from any
reader or writer. The writer keeps the rule, and nothing else does (`canonical_iff`), so every answer
of a reader can be stated as one about numbers: an integer is read, or the content is not canonical,
and a word is read where the number of that integer is below 2^64.

## Where the content gets longer

A bit of the content is taken by the sign, so content of `k` bytes has room for the numbers whose
double is below `256 ^ k`. Both the sign bit and the length of what is written are told by comparing
that double with a power of 256 (`hasSignBit_iff`, `length_encode_ofNat_le_iff`), and no case of
leading bytes is looked at again.
-/

namespace Hashlock.Integer

/-! ## The rule -/

/-- The integer that content denotes in two's complement. -/
def signedValue (content : Bytes) : Int :=
  if hasSignBit content then (value content : Int) - (256 ^ content.length : Nat)
  else value content

/-- The content that stands for a number: no other content of the number is shorter. -/
structure Canonical (content : Bytes) (n : Nat) : Prop where
  ne_nil : content ≠ []
  signedValue_eq : signedValue content = n
  shortest : ∀ content', content' ≠ [] → signedValue content' = n →
    content.length ≤ content'.length

theorem signedValue_eq_natCast_iff {content : Bytes} {n : Nat} :
    signedValue content = n ↔ hasSignBit content = false ∧ value content = n := by
  have hlt := value_lt content
  rw [signedValue]
  by_cases hsign : hasSignBit content = true
  · rw [if_pos hsign]
    refine iff_of_false (fun h ↦ ?_) fun h ↦ Bool.false_ne_true (h.1.symm.trans hsign)
    omega
  · rw [if_neg hsign, Int.natCast_inj]
    exact (and_iff_right (Bool.eq_false_iff.mpr hsign)).symm

/-- Content of a number leaves the bit for the sign free. -/
theorem two_mul_lt_of_signedValue_eq {content : Bytes} {n : Nat} (h : signedValue content = n) :
    2 * n < 256 ^ content.length := by
  obtain ⟨hsign, rfl⟩ := signedValue_eq_natCast_iff.mp h
  refine Nat.not_le.mp fun hle ↦ ?_
  exact Bool.false_ne_true (hsign.symm.trans (hasSignBit_iff.mpr hle))

/-! ## What is written -/

theorem encode_magnitude (bs : Bytes) : encode (magnitude bs) = encode bs := by
  rw [encode, encode, magnitude_eq_self (head?_magnitude bs)]

theorem hasSignBit_encode (bs : Bytes) : hasSignBit (encode bs) = false := by
  rw [encode]
  split
  · rfl
  · rename_i hfront
    exact (Bool.or_eq_false_iff.mp (Bool.eq_false_iff.mpr hfront)).2

/-- What is written denotes the number of the bytes, and never a negative one. -/
theorem signedValue_encode (bs : Bytes) : signedValue (encode bs) = value bs :=
  signedValue_eq_natCast_iff.mpr ⟨hasSignBit_encode bs, value_encode bs⟩

theorem canonical_encode (n : Nat) : Canonical (encode (ofNat n)) n := by
  have hvalue := signedValue_encode (ofNat n)
  rw [value_ofNat] at hvalue
  refine ⟨List.length_pos_iff.mp (length_encode_pos _), hvalue, fun content hne h ↦ ?_⟩
  have hdouble := two_mul_lt_of_signedValue_eq h
  obtain ⟨k, hk⟩ := Nat.exists_eq_succ_of_ne_zero (mt List.length_eq_zero_iff.mp hne)
  rw [hk] at hdouble ⊢
  exact length_encode_ofNat_le_iff.mpr hdouble

/-- **One content is canonical for each number**, that which is written. -/
theorem canonical_iff {content : Bytes} {n : Nat} :
    Canonical content n ↔ content = encode (ofNat n) := by
  constructor
  · intro h
    have hwritten := canonical_encode n
    have hlen : content.length = (encode (ofNat n)).length :=
      Nat.le_antisymm (h.shortest _ hwritten.ne_nil hwritten.signedValue_eq)
        (hwritten.shortest _ h.ne_nil h.signedValue_eq)
    have hvalue : value content = value (encode (ofNat n)) :=
      (signedValue_eq_natCast_iff.mp h.signedValue_eq).2.trans
        (signedValue_eq_natCast_iff.mp hwritten.signedValue_eq).2.symm
    rw [← bigEndian_value content, hlen, hvalue, bigEndian_value]
  · rintro rfl
    exact canonical_encode n

/-! ## What is read -/

theorem decode_encode (bs : Bytes) : decode (encode bs) = .ok (magnitude bs) :=
  decode_eq_ok_iff.mpr ⟨head?_magnitude bs, (encode_magnitude bs).symm⟩

/-- There is one reason to refuse content. -/
theorem decode_eq_error {content : Bytes} {e : DecodeError} (h : decode content = .error e) :
    e = .nonCanonicalInteger := by
  cases content with
  | nil => exact (Except.error.inj h).symm
  | cons b bs =>
    by_cases hb : b = 0
    · rw [hb, decode_zero_cons] at h
      split at h
      · exact absurd h nofun
      · exact (Except.error.inj h).symm
    · rw [decode_cons_of_ne hb] at h
      split at h
      · exact (Except.error.inj h).symm
      · exact absurd h nofun

theorem decode_of_canonical {content : Bytes} {n : Nat} (h : Canonical content n) :
    decode content = .ok (ofNat n) := by
  rw [canonical_iff.mp h, decode_encode, magnitude_eq_self (head?_ofNat n)]

theorem decode_of_not_canonical {content : Bytes} (h : ¬ ∃ n, Canonical content n) :
    decode content = .error .nonCanonicalInteger := by
  cases hdecode : decode content with
  | error e => rw [decode_eq_error hdecode]
  | ok digits =>
    obtain ⟨hhead, rfl⟩ := decode_eq_ok_iff.mp hdecode
    refine absurd ⟨value digits, ?_⟩ h
    rw [canonical_iff, ofNat_value hhead]

/-- A word is read from canonical content of a number below 2^64, and it is that number. -/
theorem decodeUInt64_of_canonical {content : Bytes} {n : Nat} (h : Canonical content n) :
    decodeUInt64 content
      = if UInt64.size ≤ n then .error .integerOverflow else .ok (UInt64.ofNat n) := by
  have hsize : (ofNat n).length > 8 ↔ UInt64.size ≤ n :=
    Nat.not_le.symm.trans ((not_congr length_ofNat_le_iff).trans Nat.not_lt)
  have hword : decodeUInt64 content = toUInt64 (ofNat n) := by
    rw [decodeUInt64, decode_of_canonical h]
    rfl
  rw [hword, toUInt64, magnitude_eq_self (head?_ofNat n), word_eq, value_ofNat]
  exact if_congr hsize rfl rfl

theorem decodeUInt64_of_not_canonical {content : Bytes} (h : ¬ ∃ n, Canonical content n) :
    decodeUInt64 content = .error .nonCanonicalInteger := by
  rw [decodeUInt64, decode_of_not_canonical h]
  rfl

theorem decodeUInt64_eq_integerOverflow_iff {content : Bytes} :
    decodeUInt64 content = .error .integerOverflow ↔ ∃ n, UInt64.size ≤ n ∧ Canonical content n := by
  constructor
  · intro h
    by_cases hcanonical : ∃ n, Canonical content n
    · obtain ⟨n, hn⟩ := hcanonical
      refine ⟨n, Nat.not_lt.mp fun hlt ↦ ?_, hn⟩
      rw [decodeUInt64_of_canonical hn, if_neg (Nat.not_le.mpr hlt)] at h
      exact absurd h nofun
    · rw [decodeUInt64_of_not_canonical hcanonical] at h
      exact absurd h nofun
  · rintro ⟨n, hlarge, hn⟩
    rw [decodeUInt64_of_canonical hn, if_pos hlarge]

theorem decodeUInt64_eq_nonCanonicalInteger_iff {content : Bytes} :
    decodeUInt64 content = .error .nonCanonicalInteger ↔ ¬ ∃ n, Canonical content n := by
  constructor
  · rintro h ⟨n, hn⟩
    rw [decodeUInt64_of_canonical hn] at h
    split at h
    · exact absurd h nofun
    · exact absurd h nofun
  · exact decodeUInt64_of_not_canonical

/-! ## Main result -/

/-- **Integers are written and read exactly, at every precision.** Content is accepted if it is what
is written for some magnitude. Writing drops leading zeros and keeps the number. For words the
accepted content is that of the 64-bit numbers; canonical content of a larger number is an overflow,
and all other content is not canonical. -/
theorem codec_exact :
    (∀ content digits, decode content = .ok digits ↔
        digits.head? ≠ some 0 ∧ content = encode digits)
      ∧ (∀ bs, decode (encode bs) = .ok (magnitude bs) ∧ value (magnitude bs) = value bs
          ∧ signedValue (encode bs) = value bs)
      ∧ (∀ content n, decodeUInt64 content = .ok n ↔ content = encodeUInt64 n)
      ∧ (∀ n : UInt64, encodeUInt64 n = encode (bigEndian 8 n.toNat))
      ∧ (∀ content, decodeUInt64 content = .error .integerOverflow ↔
          ∃ n, UInt64.size ≤ n ∧ Canonical content n)
      ∧ (∀ content, decodeUInt64 content = .error .nonCanonicalInteger ↔
          ¬ ∃ n, Canonical content n)
      ∧ ∀ content n, Canonical content n ↔ content = encode (ofNat n) := by
  refine ⟨fun _ _ ↦ decode_eq_ok_iff, fun bs ↦ ?_, fun _ _ ↦ decodeUInt64_eq_ok_iff, fun n ↦ ?_,
    fun _ ↦ decodeUInt64_eq_integerOverflow_iff, fun _ ↦ decodeUInt64_eq_nonCanonicalInteger_iff,
    fun _ _ ↦ canonical_iff⟩
  · exact ⟨decode_encode bs, value_magnitude bs, signedValue_encode bs⟩
  · rw [encodeUInt64, ofNat_eq_magnitude_bigEndian (k := 8) n.toNat_lt, encode_magnitude]

end Hashlock.Integer
