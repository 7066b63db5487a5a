import Hashlock.Integer
import Mathlib.Algebra.Group.Nat.Defs

/-!
# Integers and their bytes

A number has one minimal form: `Integer.ofNat` and `Integer.value` are inverse to each other on
byte strings that do not start with zero (`value_ofNat`, `ofNat_value`). On top of that the content
of a DER integer is read in one form only (`decode_eq_ok_iff`), and so is that of a word
(`decodeUInt64_eq_ok_iff`).

The number of bytes is settled by the two bounds `256 ^ k ≤ n < 256 ^ (k + 1)`; the binary
logarithm that `ofNat` uses appears in `length_ofNat` alone. The content of a DER integer leaves a
bit for the sign, so it is the double of the number that is held against powers of 256
(`length_encode_ofNat_le_iff`).
-/

namespace Hashlock.Integer

/-! ## Magnitudes -/

theorem magnitude_eq_self {bs : Bytes} (h : bs.head? ≠ some 0) : magnitude bs = bs := by
  cases bs with
  | nil => rfl
  | cons b bs =>
    have hb : ¬ (b == 0) = true := fun hb ↦ h (by rw [List.head?_cons, eq_of_beq hb])
    rw [magnitude, List.dropWhile_cons, if_neg hb]

theorem head?_magnitude (bs : Bytes) : (magnitude bs).head? ≠ some 0 := by
  induction bs with
  | nil => exact nofun
  | cons b bs ih =>
    rw [magnitude, List.dropWhile_cons]
    by_cases hb : (b == 0) = true
    · rw [if_pos hb]
      exact ih
    · rw [if_neg hb, List.head?_cons]
      exact fun h ↦ hb (beq_iff_eq.mpr (Option.some.inj h))

theorem magnitude_replicate_append (zeros : Nat) (bs : Bytes) :
    magnitude (List.replicate zeros 0 ++ bs) = magnitude bs := by
  induction zeros with
  | zero => rfl
  | succ zeros ih => exact ih

/-! ## The number that bytes denote -/

@[simp] theorem value_nil : value [] = 0 := rfl

theorem value_append_singleton (bs : Bytes) (b : UInt8) :
    value (bs ++ [b]) = value bs * 256 + b.toNat := by
  rw [value, List.foldl_append, List.foldl_cons, List.foldl_nil, ← value]

theorem value_cons (b : UInt8) (bs : Bytes) :
    value (b :: bs) = b.toNat * 256 ^ bs.length + value bs := by
  have hfold : ∀ n : Nat, bs.foldl (fun n b ↦ n * 256 + b.toNat) n
      = n * 256 ^ bs.length + value bs := by
    induction bs with
    | nil => intro n; rw [List.foldl_nil, List.length_nil, Nat.pow_zero, Nat.mul_one]; rfl
    | cons c bs ih =>
      intro n
      have hc : value (c :: bs) = c.toNat * 256 ^ bs.length + value bs := by
        rw [value, List.foldl_cons, ih, Nat.zero_mul, Nat.zero_add]
      rw [List.foldl_cons, ih, hc, List.length_cons, Nat.pow_succ', Nat.add_mul, Nat.mul_assoc,
        Nat.add_assoc]
  rw [value, List.foldl_cons, hfold, Nat.zero_mul, Nat.zero_add]

theorem value_lt (bs : Bytes) : value bs < 256 ^ bs.length := by
  induction bs with
  | nil => exact Nat.one_pos
  | cons b bs ih =>
    have hb : (b.toNat + 1) * 256 ^ bs.length ≤ 256 * 256 ^ bs.length :=
      Nat.mul_le_mul_right _ b.toNat_lt
    rw [Nat.add_mul, Nat.one_mul] at hb
    rw [value_cons, List.length_cons, Nat.pow_succ']
    omega

theorem le_value {b : UInt8} (hb : b ≠ 0) (bs : Bytes) : 256 ^ bs.length ≤ value (b :: bs) := by
  have hpos : 0 < b.toNat := Nat.pos_of_ne_zero fun h ↦ hb (UInt8.toNat_inj.mp h)
  rw [value_cons]
  exact Nat.le_trans (Nat.le_mul_of_pos_left _ hpos) (Nat.le_add_right _ _)

/-! ## The bytes of a number -/

theorem bigEndian_succ (k n : Nat) :
    bigEndian (k + 1) n = bigEndian k (n / 256) ++ [UInt8.ofNat n] := by
  rw [bigEndian, littleEndian, List.reverse_cons, ← bigEndian]

theorem value_bigEndian {k n : Nat} (h : n < 256 ^ k) : value (bigEndian k n) = n := by
  induction k generalizing n with
  | zero =>
    rw [Nat.pow_zero] at h
    rw [Nat.lt_one_iff.mp h]
    rfl
  | succ k ih =>
    rw [Nat.pow_succ] at h
    rw [bigEndian_succ, value_append_singleton, ih (Nat.div_lt_of_lt_mul (by omega)),
      UInt8.toNat_ofNat']
    omega

theorem bigEndian_append_singleton (k n : Nat) (b : UInt8) :
    bigEndian (k + 1) (n * 256 + b.toNat) = bigEndian k n ++ [b] := by
  have hb : b.toNat < 256 := b.toNat_lt
  have hlow : UInt8.ofNat (n * 256 + b.toNat) = b := by
    rw [← UInt8.toNat_inj, UInt8.toNat_ofNat']
    omega
  rw [bigEndian_succ, hlow, show (n * 256 + b.toNat) / 256 = n by omega]

/-- Writing the number that bytes denote, with as many bytes, gives the bytes back. -/
theorem bigEndian_value (bs : Bytes) : bigEndian bs.length (value bs) = bs := by
  rw [← List.reverse_reverse bs]
  induction bs.reverse with
  | nil => rfl
  | cons b bs ih =>
    rw [List.reverse_cons, List.length_append, List.length_singleton, value_append_singleton,
      bigEndian_append_singleton, ih]

/-! ## Minimal forms -/

theorem value_magnitude (bs : Bytes) : value (magnitude bs) = value bs := by
  induction bs with
  | nil => rfl
  | cons b bs ih =>
    rw [magnitude, List.dropWhile_cons]
    by_cases hb : (b == 0) = true
    · rw [if_pos hb, ← magnitude, ih, value_cons, eq_of_beq hb, UInt8.toNat_zero, Nat.zero_mul,
        Nat.zero_add]
    · rw [if_neg hb]

/-- As many bytes as the number needs: one more than the power of 256 below it. -/
theorem length_ofNat {k n : Nat} (hle : 256 ^ k ≤ n) (hlt : n < 256 ^ (k + 1)) :
    (ofNat n).length = k + 1 := by
  have hpos : n ≠ 0 := Nat.pos_iff_ne_zero.mp (Nat.lt_of_lt_of_le (Nat.pow_pos (by decide)) hle)
  have hpow : ∀ j : Nat, 256 ^ j = 2 ^ (8 * j) := fun j ↦ by rw [Nat.pow_mul]
  rw [hpow] at hle hlt
  have hlow := (Nat.le_log2 hpos).mpr hle
  have hhigh := (Nat.log2_lt hpos).mpr hlt
  rw [ofNat, if_neg hpos, length_bigEndian]
  omega

/-- Every number but zero lies between two neighbouring powers of 256. -/
theorem exists_pow_le_lt {n : Nat} (h : n ≠ 0) : ∃ k, 256 ^ k ≤ n ∧ n < 256 ^ (k + 1) := by
  have hpow : ∀ j : Nat, 256 ^ j = 2 ^ (8 * j) := fun j ↦ by rw [Nat.pow_mul]
  refine ⟨n.log2 / 8, ?_, ?_⟩
  · rw [hpow]
    exact (Nat.le_log2 h).mp (by omega)
  · rw [hpow]
    exact (Nat.log2_lt h).mp (by omega)

theorem ofNat_eq_bigEndian {k n : Nat} (hle : 256 ^ k ≤ n) (hlt : n < 256 ^ (k + 1)) :
    ofNat n = bigEndian (k + 1) n := by
  have hlen := length_ofNat hle hlt
  have hpos : n ≠ 0 := Nat.pos_iff_ne_zero.mp (Nat.lt_of_lt_of_le (Nat.pow_pos (by decide)) hle)
  rw [ofNat, if_neg hpos] at hlen ⊢
  rw [length_bigEndian] at hlen
  rw [hlen]

theorem value_ofNat (n : Nat) : value (ofNat n) = n := by
  by_cases h : n = 0
  · rw [ofNat, if_pos h, h, value_nil]
  · obtain ⟨k, hle, hlt⟩ := exists_pow_le_lt h
    rw [ofNat_eq_bigEndian hle hlt, value_bigEndian hlt]

/-- Bytes without a leading zero are the minimal form of their number. -/
theorem ofNat_value {bs : Bytes} (h : bs.head? ≠ some 0) : ofNat (value bs) = bs := by
  cases bs with
  | nil => rfl
  | cons b bs =>
    have hb : b ≠ 0 := fun hb ↦ h (by rw [hb, List.head?_cons])
    have hlt := value_lt (b :: bs)
    rw [List.length_cons] at hlt
    rw [ofNat_eq_bigEndian (le_value hb bs) hlt, ← List.length_cons (a := b), bigEndian_value]

/-- The minimal form can be cut out of any form that is wide enough: it starts at the first byte
that is not zero. -/
theorem ofNat_eq_magnitude_bigEndian {k n : Nat} (h : n < 256 ^ k) :
    ofNat n = magnitude (bigEndian k n) := by
  rw [← ofNat_value (head?_magnitude (bigEndian k n)), value_magnitude, value_bigEndian h]

theorem length_ofNat_le_iff {k n : Nat} : (ofNat n).length ≤ k ↔ n < 256 ^ k := by
  constructor
  · intro h
    have hlt := value_lt (ofNat n)
    rw [value_ofNat] at hlt
    exact Nat.lt_of_lt_of_le hlt (Nat.pow_le_pow_right (by decide) h)
  · intro h
    by_cases hn : n = 0
    · rw [ofNat, if_pos hn]
      exact Nat.zero_le k
    · obtain ⟨j, hle, hlt⟩ := exists_pow_le_lt hn
      rw [length_ofNat hle hlt]
      exact (Nat.pow_lt_pow_iff_right (by decide)).mp (Nat.lt_of_le_of_lt hle h)

theorem head?_ofNat (n : Nat) : (ofNat n).head? ≠ some 0 := by
  by_cases hn : n = 0
  · rw [ofNat, if_pos hn]
    exact nofun
  · obtain ⟨k, hle, hlt⟩ := exists_pow_le_lt hn
    intro h
    -- A leading zero would leave too few bytes for a number of this size.
    obtain ⟨bs, hbs⟩ := List.head?_eq_some_iff.mp h
    have hlen := length_ofNat hle hlt
    have hval := value_ofNat n
    rw [hbs, List.length_cons] at hlen
    rw [hbs, value_cons, UInt8.toNat_zero, Nat.zero_mul, Nat.zero_add] at hval
    have hsmall := value_lt bs
    rw [hval, Nat.succ.inj hlen] at hsmall
    exact absurd hsmall (Nat.not_lt.mpr hle)

/-! ## Content of DER integers -/

theorem encode_of_head? {digits : Bytes} (h : digits.head? ≠ some 0) :
    encode digits = if digits.isEmpty || hasSignBit digits then 0 :: digits else digits := by
  rw [encode, magnitude_eq_self h]

theorem decode_zero_cons (digits : Bytes) :
    decode (0 :: digits)
      = if digits.isEmpty || hasSignBit digits then .ok digits else .error .nonCanonicalInteger :=
  rfl

theorem decode_cons_of_ne {b : UInt8} (hb : b ≠ 0) (bs : Bytes) :
    decode (b :: bs)
      = if hasSignBit (b :: bs) then .error .nonCanonicalInteger else .ok (b :: bs) := by
  unfold decode
  split
  · rfl
  · split
    · rename_i heq
      exact absurd heq nofun
    · rename_i heq
      exact absurd (List.cons.inj heq).1 hb
    · rfl

/-- Content of a DER integer is accepted in one form only, that which `encode` writes. -/
theorem decode_eq_ok_iff {content digits : Bytes} :
    decode content = .ok digits ↔ digits.head? ≠ some 0 ∧ content = encode digits := by
  constructor
  · intro h
    cases content with
    | nil => exact absurd h nofun
    | cons b bs =>
      by_cases hb : b = 0
      · rw [hb, decode_zero_cons] at h
        split at h
        · rename_i hkeep
          obtain rfl := Except.ok.inj h
          -- A digit string that is empty or starts with a sign bit does not start with zero.
          have hhead : bs.head? ≠ some 0 := by
            intro hz
            obtain ⟨tail, rfl⟩ := List.head?_eq_some_iff.mp hz
            exact absurd hkeep nofun
          rw [encode_of_head? hhead, if_pos hkeep, hb]
          exact ⟨hhead, rfl⟩
        · exact absurd h nofun
      · rw [decode_cons_of_ne hb] at h
        split at h
        · exact absurd h nofun
        · rename_i hsign
          obtain rfl := Except.ok.inj h
          have hhead : (b :: bs).head? ≠ some 0 := fun hz ↦ hb (Option.some.inj hz)
          rw [encode_of_head? hhead, List.isEmpty_cons, Bool.false_or, if_neg hsign]
          exact ⟨hhead, rfl⟩
  · rintro ⟨hhead, rfl⟩
    rw [encode_of_head? hhead]
    split
    · rename_i hkeep
      rw [decode_zero_cons, if_pos hkeep]
    · rename_i hkeep
      cases digits with
      | nil => exact absurd rfl hkeep
      | cons b bs =>
        rw [List.isEmpty_cons, Bool.false_or] at hkeep
        rw [decode_cons_of_ne fun hb ↦ hhead (by rw [hb, List.head?_cons]), if_neg hkeep]

theorem value_encode (digits : Bytes) : value (encode digits) = value digits := by
  rw [encode, ← value_magnitude digits]
  split
  · rw [value_cons, UInt8.toNat_zero, Nat.zero_mul, Nat.zero_add]
  · rfl

/-- A number can be told from the content of its DER integer. -/
theorem eq_of_encode_ofNat_eq {n n' : Nat} (h : encode (ofNat n) = encode (ofNat n')) :
    n = n' := by
  rw [← value_ofNat n, ← value_encode, h, value_encode, value_ofNat]

/-! ## Length of DER integers -/

theorem length_encode_pos (digits : Bytes) : 0 < (encode digits).length := by
  rw [encode]
  split
  · exact Nat.succ_pos _
  · rename_i hfront
    refine List.length_pos_iff.mpr fun hnil ↦ hfront ?_
    rw [hnil]
    rfl

/-- A first bit that is set is worth half of what the bytes can denote. -/
theorem hasSignBit_iff {bs : Bytes} :
    hasSignBit bs = true ↔ 256 ^ bs.length ≤ 2 * value bs := by
  cases bs with
  | nil => exact iff_of_false Bool.false_ne_true (by decide)
  | cons b bs =>
    have hbit : hasSignBit (b :: bs) = true ↔ 0x80 ≤ b.toNat := by
      rw [hasSignBit]
      obtain ⟨⟨b⟩⟩ := b
      revert b
      decide +kernel
    have hlt := value_lt bs
    rw [hbit, value_cons, List.length_cons, Nat.pow_succ']
    constructor
    · intro h
      have hmul := Nat.mul_le_mul_right (256 ^ bs.length) h
      omega
    · intro h
      refine Nat.not_lt.mp fun hsmall ↦ ?_
      have hmul := Nat.mul_le_mul_right (256 ^ bs.length) (Nat.le_of_lt_succ hsmall)
      omega

/-- The content has as many bytes as the double of the number needs, but at least one. -/
theorem length_encode_ofNat_le_iff {k n : Nat} :
    (encode (ofNat n)).length ≤ k + 1 ↔ 2 * n < 256 ^ (k + 1) := by
  have hsign : hasSignBit (ofNat n) = true ↔ 256 ^ (ofNat n).length ≤ 2 * n := by
    rw [hasSignBit_iff, value_ofNat]
  rw [encode_of_head? (head?_ofNat n)]
  split
  · rename_i hfront
    rw [List.length_cons, Nat.add_le_add_iff_right]
    constructor
    · intro hle
      have hlt := length_ofNat_le_iff.mp hle
      rw [Nat.pow_succ']
      omega
    · intro hlt
      rcases Bool.or_eq_true_iff.mp hfront with hempty | hbit
      · rw [List.isEmpty_iff.mp hempty]
        exact Nat.zero_le k
      · have hpow := Nat.lt_of_le_of_lt (hsign.mp hbit) hlt
        exact Nat.le_of_lt_succ ((Nat.pow_lt_pow_iff_right (by decide)).mp hpow)
  · rename_i hfront
    have hlt : 2 * n < 256 ^ (ofNat n).length :=
      Nat.not_le.mp fun hle ↦ hfront (Bool.or_eq_true_iff.mpr (.inr (hsign.mpr hle)))
    constructor
    · intro hle
      exact Nat.lt_of_lt_of_le hlt (Nat.pow_le_pow_right (by decide) hle)
    · intro hdouble
      exact length_ofNat_le_iff.mpr (by omega)

/-! ## Words -/

/-- Shifting a byte into a word is a step of `value`, modulo 2^64. -/
theorem shiftLeft_or_eq (n : Nat) (b : UInt8) :
    UInt64.ofNat n <<< 8 ||| b.toUInt64 = UInt64.ofNat (n * 256 + b.toNat) := by
  have hb : b.toNat < 2 ^ 8 := b.toNat_lt
  have hword : b.toNat % 2 ^ 64 = b.toNat := Nat.mod_eq_of_lt (Nat.lt_trans hb (by decide))
  have hshift : (UInt64.ofNat n <<< 8).toNat = n <<< 8 % 2 ^ 64 := by
    rw [UInt64.toNat_shiftLeft, UInt64.toNat_ofNat', Nat.shiftLeft_eq, Nat.shiftLeft_eq]
    exact Nat.mod_mul_mod n (2 ^ 8) (2 ^ 64)
  rw [← UInt64.toNat_inj, UInt64.toNat_or, hshift, UInt8.toNat_toUInt64, UInt64.toNat_ofNat',
    ← hword, ← Nat.or_mod_two_pow, hword, ← Nat.shiftLeft_add_eq_or_of_lt hb, Nat.shiftLeft_eq]

theorem word_eq (bs : Bytes) : word bs = UInt64.ofNat (value bs) := by
  have hfold : ∀ n : Nat,
      bs.foldl (fun (w : UInt64) b ↦ w <<< 8 ||| b.toUInt64) (UInt64.ofNat n)
        = UInt64.ofNat (bs.foldl (fun n b ↦ n * 256 + b.toNat) n) := by
    induction bs with
    | nil => intro n; rfl
    | cons b bs ih => intro n; rw [List.foldl_cons, List.foldl_cons, shiftLeft_or_eq, ih]
  exact hfold 0

/-- Nothing of eight bytes is lost in a word. -/
theorem toNat_word {bs : Bytes} (h : bs.length ≤ 8) : (word bs).toNat = value bs := by
  have hlt : value bs < UInt64.size :=
    Nat.lt_of_lt_of_le (value_lt bs) (Nat.pow_le_pow_right (by decide) h)
  rw [word_eq, UInt64.toNat_ofNat_of_lt' hlt]

theorem length_encode_ofNat_le {n : Nat} (h : n < UInt64.size) :
    (encode (ofNat n)).length ≤ 9 := by
  have hdouble : 2 * n < 2 * UInt64.size := Nat.mul_lt_mul_of_pos_left h Nat.two_pos
  exact length_encode_ofNat_le_iff.mpr (Nat.lt_trans hdouble (by decide))

theorem length_encodeUInt64_le (n : UInt64) : (encodeUInt64 n).length ≤ 9 :=
  length_encode_ofNat_le n.toNat_lt

theorem eq_of_encodeUInt64_eq {n n' : UInt64} (h : encodeUInt64 n = encodeUInt64 n') : n = n' :=
  UInt64.toNat_inj.mp (eq_of_encode_ofNat_eq h)

theorem toUInt64_eq_ok_iff {digits : Bytes} (h : digits.head? ≠ some 0) {n : UInt64} :
    toUInt64 digits = .ok n ↔ digits = ofNat n.toNat := by
  have hsize : ∀ m : Nat, (ofNat m).length ≤ 8 ↔ m < UInt64.size := fun m ↦ length_ofNat_le_iff
  simp only [toUInt64, magnitude_eq_self h]
  constructor
  · intro hn
    split at hn
    · exact absurd hn (by simp)
    · rename_i hlen
      rw [← Except.ok.inj hn, toNat_word (Nat.not_lt.mp hlen), ofNat_value h]
  · rintro rfl
    rw [if_neg (Nat.not_lt.mpr ((hsize _).mpr n.toNat_lt)), word_eq, value_ofNat,
      UInt64.ofNat_toNat]

/-- The content of a DER integer for a word is accepted in one form only. -/
theorem decodeUInt64_eq_ok_iff {content : Bytes} {n : UInt64} :
    decodeUInt64 content = .ok n ↔ content = encodeUInt64 n := by
  have hhead := head?_ofNat n.toNat
  rw [decodeUInt64, encodeUInt64]
  constructor
  · intro h
    cases hd : decode content with
    | error e => rw [hd] at h; exact absurd h (by simp [bind, Except.bind])
    | ok digits =>
      rw [hd] at h
      obtain ⟨hz, rfl⟩ := decode_eq_ok_iff.mp hd
      rw [(toUInt64_eq_ok_iff hz).mp h]
  · intro h
    rw [decode_eq_ok_iff.mpr ⟨hhead, h⟩]
    exact (toUInt64_eq_ok_iff hhead).mpr rfl

end Hashlock.Integer
