import Hashlock.Proofs.Kind.Set
import Hashlock.Proofs.Result
import Mathlib.Data.List.Induction
import Mathlib.Order.Bounds.Basic

/-!
# Canonical content of bit strings

The content of a bit string is a count of unused bits and then the bits. `bitAt` numbers the bits
from the most significant one of the first byte, and `Canonical` is the rule for the content of a
set: the members' bits are set, the last bit in use is one of them, and no unused bit is. Both stand
apart from any reader or writer. The writer keeps the rule, and nothing else does (`canonical_iff`).

## What is reported

A set bit whose number belongs to no kind is a stray bit. Reading goes through the set bits one
after the other and stops at the first stray one, so its answer depends on the order in which they
are met. `positions_eq` settles that order once: the positions are the numbers of the set bits,
smallest first. The stray bit that is reported is then the least one (`mapM_kindAt_eq_error_iff`),
and the masks that pick out single bits are not looked at again.

Stray bits are looked for before the form of the content is, and in the unused area too. Content with
faults of both kinds is therefore reported by number, unless the number does not fit in a byte: that
is a fault of form (`strayError`).
-/

namespace Hashlock.KindSet

/-! ## Bits by number -/

/-- Bit `n` of bytes, counted from the most significant bit of the first byte. Past the end no bit
is set. -/
def bitAt (bits : Bytes) (n : Nat) : Bool := (bits.getD (n / 8) 0).toBitVec.getMsbD (n % 8)

theorem lt_of_bitAt {bits : Bytes} {n : Nat} (h : bitAt bits n = true) : n < 8 * bits.length := by
  refine Nat.not_le.mp fun hle ↦ ?_
  have hpast : bits.length ≤ n / 8 := by omega
  simp [bitAt, List.getD_eq_getElem?_getD, List.getElem?_eq_none hpast] at h

theorem bitAt_append_of_lt {bits more : Bytes} {n : Nat} (h : n < 8 * bits.length) :
    bitAt (bits ++ more) n = bitAt bits n := by
  have hbyte : n / 8 < bits.length := by omega
  simp [bitAt, List.getD_eq_getElem?_getD, List.getElem?_append_left hbyte]

theorem bitAt_append_add (bits more : Bytes) (n : Nat) :
    bitAt (bits ++ more) (8 * bits.length + n) = bitAt more n := by
  have hbyte : (8 * bits.length + n) / 8 = bits.length + n / 8 := by omega
  have hbit : (8 * bits.length + n) % 8 = n % 8 := by omega
  simp [bitAt, List.getD_eq_getElem?_getD, hbyte, hbit, List.getElem?_append_right]

/-- The mask that is moved through a byte picks out its bits from the most significant one on. -/
theorem and_mask_ne_zero_eq (b : UInt8) {j : Nat} (h : j < 8) :
    (b &&& 0x80 >>> UInt8.ofNat j != 0) = bitAt [b] j := by
  have hmask : ∀ j < 8, (0x80 >>> UInt8.ofNat j : UInt8).toBitVec = BitVec.twoPow 8 (7 - j) := by
    decide
  have hbit : bitAt [b] j = b.toBitVec.getLsbD (7 - j) := by
    simp [bitAt, Nat.div_eq_of_lt h, Nat.mod_eq_of_lt h, BitVec.getMsbD_eq_getLsbD, h]
  rw [hbit, Bool.eq_iff_iff, bne_iff_ne, ne_eq, ← UInt8.toBitVec_inj, UInt8.toBitVec_and,
    hmask j h, BitVec.and_twoPow]
  by_cases hset : b.toBitVec.getLsbD (7 - j) = true
  · have hne : ∀ i < 8, BitVec.twoPow 8 i ≠ 0#8 := by decide
    simp [hset, hne (7 - j) (by omega)]
  · simp [hset]

/-- Reading one byte more adds the bits of this byte, numbered from the end of the others. -/
theorem positions_append_singleton (bits : Bytes) (b : UInt8) :
    positions (bits ++ [b])
      = positions bits ++ ((List.range 8).filter (bitAt [b])).map (8 * bits.length + ·) := by
  have hbyte : ((List.range 8).filter fun j ↦ b &&& 0x80 >>> UInt8.ofNat j != 0)
      = (List.range 8).filter (bitAt [b]) :=
    List.filter_congr fun j hj ↦ and_mask_ne_zero_eq b (List.mem_range.mp hj)
  rw [positions, List.zipIdx_append, List.flatMap_append, ← positions, Nat.zero_add,
    List.zipIdx_singleton, List.flatMap_singleton]
  exact congrArg (fun js ↦ positions bits ++ js.map (8 * bits.length + ·)) hbyte

/-- The positions are found in order: they are the numbers of the bits that are set. -/
theorem positions_eq (bits : Bytes) :
    positions bits = (List.range (8 * bits.length)).filter (bitAt bits) := by
  induction bits using List.reverseRecOn with
  | nil => rfl
  | append_singleton bits b ih =>
    have hfront : (List.range (8 * bits.length)).filter (bitAt (bits ++ [b]))
        = (List.range (8 * bits.length)).filter (bitAt bits) :=
      List.filter_congr fun n hn ↦ bitAt_append_of_lt (List.mem_range.mp hn)
    have hlast : bitAt (bits ++ [b]) ∘ (8 * bits.length + ·) = bitAt [b] :=
      funext fun n ↦ bitAt_append_add bits [b] n
    rw [positions_append_singleton, ih, List.length_append, List.length_singleton, Nat.mul_add,
      List.range_add, List.filter_append, List.filter_map, hfront, hlast]

theorem mem_positions {bits : Bytes} {n : Nat} : n ∈ positions bits ↔ bitAt bits n = true := by
  rw [positions_eq, List.mem_filter, List.mem_range]
  exact and_iff_right_of_imp lt_of_bitAt

/-- The first position with a property is the least number of a bit that is set and has it. -/
theorem find?_positions_eq_some_iff {bits : Bytes} {p : Nat → Bool} {n : Nat} :
    (positions bits).find? p = some n ↔ IsLeast {n | bitAt bits n = true ∧ p n = true} n := by
  rw [positions_eq, List.find?_filter, List.find?_range_eq_some, List.mem_range]
  simp only [decide_eq_true_iff, Bool.not_eq_true', decide_eq_false_iff_not]
  constructor
  · rintro ⟨hn, -, hleast⟩
    exact ⟨hn, fun m hm ↦ Nat.not_lt.mp fun hlt ↦ hleast m hlt hm⟩
  · rintro ⟨hn, hleast⟩
    exact ⟨hn, lt_of_bitAt hn.1, fun m hlt hm ↦ absurd (hleast hm) (Nat.not_le.mpr hlt)⟩

/-- Bytes are equal where their bits are. -/
theorem eq_of_bitAt_eq {as bs : Bytes} (hlength : as.length = bs.length)
    (h : ∀ n, bitAt as n = bitAt bs n) : as = bs := by
  refine List.ext_getElem hlength fun i hi hi' ↦ ?_
  refine UInt8.toBitVec_inj.mp (BitVec.eq_of_getMsbD_eq fun j hj ↦ ?_)
  have hbyte : (8 * i + j) / 8 = i := by omega
  have hbit : (8 * i + j) % 8 = j := by omega
  have hat := h (8 * i + j)
  simpa [bitAt, List.getD_eq_getElem?_getD, hbyte, hbit, hi, hi'] using hat

/-! ## The rule -/

/-- The number of bits in use. -/
def usedBits (unused : UInt8) (bits : Bytes) : Nat := 8 * bits.length - unused.toNat

/-- The content that stands for a set: trailing zero bits are left out, and the bits that then
remain unused in the last byte are zero. -/
structure Canonical (unused : UInt8) (bits : Bytes) (s : KindSet) : Prop where
  /-- Only bits of the last byte are unused. -/
  unused_le : unused ≤ 7
  /-- Without a byte there is nothing unused. -/
  unused_le_length : unused.toNat ≤ 8 * bits.length
  /-- The bits that are set are the numbers of the members. -/
  bitAt_iff : ∀ n, bitAt bits n = true ↔ ∃ k ∈ s, k.index.val = n
  /-- No unused bit is set. -/
  lt_usedBits : ∀ n, bitAt bits n = true → n < usedBits unused bits
  /-- The last bit in use is set. -/
  bitAt_last : ∀ n, usedBits unused bits = n + 1 → bitAt bits n = true

theorem Canonical.usedBits_le {unused unused' : UInt8} {bits bits' : Bytes} {s : KindSet}
    (h : Canonical unused bits s) (h' : Canonical unused' bits' s) :
    usedBits unused bits ≤ usedBits unused' bits' := by
  rcases Nat.eq_zero_or_eq_succ_pred (usedBits unused bits) with hzero | hlast
  · exact hzero ▸ Nat.zero_le _
  · rw [hlast]
    exact h'.lt_usedBits _ ((h'.bitAt_iff _).mpr ((h.bitAt_iff _).mp (h.bitAt_last _ hlast)))

/-- No set has two contents. -/
theorem Canonical.unique {unused unused' : UInt8} {bits bits' : Bytes} {s : KindSet}
    (h : Canonical unused bits s) (h' : Canonical unused' bits' s) :
    unused :: bits = unused' :: bits' := by
  have hused : usedBits unused bits = usedBits unused' bits' :=
    Nat.le_antisymm (h.usedBits_le h') (h'.usedBits_le h)
  have hle : unused.toNat ≤ 7 := h.unused_le
  have hle' : unused'.toNat ≤ 7 := h'.unused_le
  have hlength := h.unused_le_length
  have hlength' := h'.unused_le_length
  -- Of all multiples of eight only one is the number of bits in use and at most seven more.
  rw [usedBits, usedBits] at hused
  have hunused : unused = unused' := UInt8.toNat_inj.mp (by omega)
  have hbits : bits = bits' := by
    refine eq_of_bitAt_eq (by omega) fun n ↦ Bool.eq_iff_iff.mpr ?_
    exact (h.bitAt_iff n).trans (h'.bitAt_iff n).symm
  rw [hunused, hbits]

/-! ## What is written -/

/-- The bits in use end with the last member. Checked set by set. -/
theorem usedBits_encode (s : KindSet) :
    (∀ k ∈ s.toList, k.index.val < usedBits (s.encode.headD 0) (s.encode.drop 1))
      ∧ (usedBits (s.encode.headD 0) (s.encode.drop 1) = 0
        ∨ ∃ k ∈ s.toList, usedBits (s.encode.headD 0) (s.encode.drop 1) = k.index.val + 1) := by
  obtain ⟨mask⟩ := s
  revert mask
  decide

theorem unused_encode (s : KindSet) :
    s.encode.headD 0 ≤ 7 ∧ (s.encode.headD 0).toNat ≤ 8 * (s.encode.drop 1).length := by
  obtain ⟨mask⟩ := s
  revert mask
  decide

theorem bitAt_encode_iff {s : KindSet} {n : Nat} :
    bitAt (s.encode.drop 1) n = true ↔ ∃ k ∈ s, k.index.val = n := by
  rw [← mem_positions, positions_encode, List.mem_map]
  simp only [mem_toList]

theorem canonical_encode (s : KindSet) : Canonical (s.encode.headD 0) (s.encode.drop 1) s := by
  obtain ⟨hlt, hlast⟩ := usedBits_encode s
  obtain ⟨hle, hlength⟩ := unused_encode s
  refine ⟨hle, hlength, fun _ ↦ bitAt_encode_iff, fun n hn ↦ ?_, fun n hn ↦ ?_⟩
  · obtain ⟨k, hk, rfl⟩ := bitAt_encode_iff.mp hn
    exact hlt k (mem_toList.mpr hk)
  · rcases hlast with hzero | ⟨k, hk, hlast⟩
    · exact absurd (hn.symm.trans hzero) (Nat.succ_ne_zero n)
    · exact bitAt_encode_iff.mpr ⟨k, mem_toList.mp hk, Nat.succ.inj (hlast.symm.trans hn)⟩

/-- **One content is canonical for each set**, that which is written. -/
theorem canonical_iff {unused : UInt8} {bits : Bytes} {s : KindSet} :
    Canonical unused bits s ↔ unused :: bits = s.encode := by
  have hwritten : s.encode.headD 0 :: s.encode.drop 1 = s.encode := by
    obtain ⟨b, bs, hencode⟩ := List.exists_cons_of_length_pos (length_encode_pos s)
    rw [hencode]
    rfl
  constructor
  · intro h
    rw [← hwritten]
    exact h.unique (canonical_encode s)
  · intro h
    have hcanonical := canonical_encode s
    rw [← h] at hcanonical
    exact hcanonical

/-! ## Stray bits -/

/-- The bits that are set and mark no kind. -/
def strayBits (bits : Bytes) : Set Nat := {n | 4 < n ∧ bitAt bits n = true}

/-- What is reported for a stray bit: its number, where that can be one of a kind at all. -/
def strayError (n : Nat) : DecodeError :=
  if 255 < n then .nonCanonicalBitString else .unknownKind (UInt8.ofNat n)

theorem strayError_eq_unknownKind_iff {n : Nat} {id : UInt8} :
    strayError n = .unknownKind id ↔ n = id.toNat := by
  have hid := id.toNat_lt
  rw [strayError]
  by_cases hlarge : 255 < n
  · rw [if_pos hlarge]
    exact iff_of_false nofun (by omega)
  · rw [if_neg hlarge, DecodeError.unknownKind.injEq, ← UInt8.toNat_inj,
      UInt8.toNat_ofNat_of_lt' (show n < 256 by omega)]

theorem kindAt_of_lt {n : Nat} (h : 4 < n) : kindAt n = .error (strayError n) := by
  rw [kindAt, strayError]
  by_cases hlarge : 255 < n
  · rw [if_pos hlarge, if_pos hlarge]
  · have hid : (UInt8.ofNat n).toNat = n := UInt8.toNat_ofNat_of_lt' (show n < 256 by omega)
    rw [if_neg hlarge, if_neg hlarge, Kind.ofId?_eq_none_of_lt (h.trans_eq hid.symm)]

theorem isOk_kindAt_iff {n : Nat} : (kindAt n).isOk = true ↔ n ≤ 4 := by
  have hkinds : ∀ n ≤ 4, (kindAt n).isOk = true := by decide
  refine ⟨fun h ↦ Nat.not_lt.mp fun hlt ↦ ?_, hkinds n⟩
  rw [kindAt_of_lt hlt] at h
  exact Bool.false_ne_true h

/-- Going through the bits stops at the least stray one. -/
theorem mapM_kindAt_eq_error_iff {bits : Bytes} {e : DecodeError} :
    (positions bits).mapM kindAt = .error e
      ↔ ∃ n, IsLeast (strayBits bits) n ∧ strayError n = e := by
  have hstray : {n | bitAt bits n = true ∧ (!(kindAt n).isOk) = true} = strayBits bits := by
    ext n
    rw [Set.mem_ofPred_eq, Bool.not_eq_true', ← Bool.not_eq_true, isOk_kindAt_iff, Nat.not_le]
    exact and_comm
  rw [Result.mapM_eq_error_iff]
  refine exists_congr fun n ↦ ?_
  rw [find?_positions_eq_some_iff, hstray]
  refine and_congr_right fun hn ↦ ?_
  rw [kindAt_of_lt hn.1.1, Except.error.injEq]

/-! ## What is read -/

/-- The count in front is in range, and bit `n` is the first stray one after it. -/
def FirstStray (content : Bytes) (n : Nat) : Prop :=
  ∃ unused bits, content = unused :: bits ∧ unused ≤ 7 ∧ IsLeast (strayBits bits) n

theorem decode_of_firstStray {content : Bytes} {n : Nat} (h : FirstStray content n) :
    decode content = .error (strayError n) := by
  obtain ⟨unused, bits, rfl, hunused, hn⟩ := h
  have hbits : bits ≠ [] := by
    rintro rfl
    exact Nat.not_lt_zero n (lt_of_bitAt hn.1.2)
  have hform : ¬ (7 < unused ∨ bits.isEmpty ∧ unused ≠ 0) := by
    rintro (hlt | ⟨hempty, -⟩)
    · exact UInt8.not_lt.mpr hunused hlt
    · exact hbits (List.isEmpty_iff.mp hempty)
  rw [decode, if_neg hform,
    Result.bind_of_error (mapM_kindAt_eq_error_iff.mpr ⟨n, hn, rfl⟩)]

theorem eq_nonCanonicalBitString_of_decode {content : Bytes} {e : DecodeError}
    (h : decode content = .error e) (hstray : ¬ ∃ n, FirstStray content n) :
    e = .nonCanonicalBitString := by
  rcases content with _ | ⟨unused, bits⟩
  · exact (Except.error.inj h).symm
  · rw [decode] at h
    by_cases hform : 7 < unused ∨ bits.isEmpty ∧ unused ≠ 0
    · rw [if_pos hform] at h
      exact (Except.error.inj h).symm
    · rw [if_neg hform, Result.bind_eq_error_iff] at h
      rcases h with hkinds | ⟨ks, -, hwritten⟩
      · obtain ⟨n, hn, -⟩ := mapM_kindAt_eq_error_iff.mp hkinds
        have hunused : unused ≤ 7 := UInt8.not_lt.mp fun hlt ↦ hform (.inl hlt)
        exact absurd ⟨n, unused, bits, rfl, hunused, hn⟩ hstray
      · dsimp only at hwritten
        split at hwritten
        · cases hwritten
        · exact (Except.error.inj hwritten).symm

theorem decode_eq_unknownKind_iff {content : Bytes} {id : UInt8} :
    decode content = .error (.unknownKind id) ↔ FirstStray content id.toNat := by
  constructor
  · intro h
    by_cases hstray : ∃ n, FirstStray content n
    · obtain ⟨n, hn⟩ := hstray
      rw [decode_of_firstStray hn, Except.error.injEq, strayError_eq_unknownKind_iff] at h
      exact h ▸ hn
    · exact absurd (eq_nonCanonicalBitString_of_decode h hstray) nofun
  · intro h
    rw [decode_of_firstStray h, strayError_eq_unknownKind_iff.mpr rfl]

/-- There are two reasons to refuse content. -/
theorem decode_eq_error {content : Bytes} {e : DecodeError} (h : decode content = .error e) :
    e = .nonCanonicalBitString ∨ ∃ id, e = .unknownKind id := by
  by_cases hstray : ∃ n, FirstStray content n
  · obtain ⟨n, hn⟩ := hstray
    rw [decode_of_firstStray hn] at h
    rw [← Except.error.inj h, strayError]
    split
    · exact .inl rfl
    · exact .inr ⟨_, rfl⟩
  · exact .inl (eq_nonCanonicalBitString_of_decode h hstray)

theorem decode_eq_nonCanonicalBitString_iff {content : Bytes} :
    decode content = .error .nonCanonicalBitString
      ↔ (¬ ∃ s : KindSet, content = s.encode) ∧ ¬ ∃ id : UInt8, FirstStray content id.toNat := by
  constructor
  · refine fun h ↦ ⟨?_, ?_⟩
    · rintro ⟨s, rfl⟩
      rw [decode_encode] at h
      exact absurd h nofun
    · rintro ⟨id, hid⟩
      rw [decode_eq_unknownKind_iff.mpr hid] at h
      exact absurd h nofun
  · rintro ⟨hwritten, hknown⟩
    cases hdecode : decode content with
    | ok s => exact absurd ⟨s, decode_eq_ok_iff.mp hdecode⟩ hwritten
    | error e =>
      rcases decode_eq_error hdecode with rfl | ⟨id, rfl⟩
      · rfl
      · exact absurd ⟨id, decode_eq_unknownKind_iff.mp hdecode⟩ hknown

/-! ## Main result -/

/-- **Bit strings are read in exactly one form.** The content written for a set is read as this
set, and all other content is refused: with the number of the first stray bit, where the count in
front is in range and that number fits in a byte, and otherwise as not canonical. What is written
for a set is the one content that the rule admits. -/
theorem decode_outcomes :
    (∀ content s, decode content = .ok s ↔ content = s.encode)
      ∧ (∀ content id, decode content = .error (.unknownKind id) ↔ FirstStray content id.toNat)
      ∧ (∀ content, decode content = .error .nonCanonicalBitString ↔
          (¬ ∃ s : KindSet, content = s.encode) ∧ ¬ ∃ id : UInt8, FirstStray content id.toNat)
      ∧ ∀ unused bits s, Canonical unused bits s ↔ unused :: bits = s.encode :=
  ⟨fun _ _ ↦ decode_eq_ok_iff, fun _ _ ↦ decode_eq_unknownKind_iff,
    fun _ ↦ decode_eq_nonCanonicalBitString_iff, fun _ _ _ ↦ canonical_iff⟩

/-- The stray bit counts, and neither the wrong number of unused bits nor the trailing zero byte. -/
example : decode [0, 0x44, 0] = .error (.unknownKind 5) := rfl

/-- Bit 256 is stray, but no kind could have this number. -/
example : decode (7 :: List.replicate 32 0 ++ [0x80]) = .error .nonCanonicalBitString := rfl

end Hashlock.KindSet
