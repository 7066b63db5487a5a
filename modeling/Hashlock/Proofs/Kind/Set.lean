import Hashlock.Kind.Set
import Mathlib.Control.Monad.Basic

/-!
# Bit strings of sets of kinds

A set of kinds is read from one bit string only. That nothing else is accepted is the comparison
at the end of `KindSet.decode`; that the one form is accepted is checked set by set, for there are
only thirty-two of them. Neither in memory nor on the wire is there a bit that marks no kind.
-/

namespace Hashlock.KindSet

/-! ## Members -/

@[simp] theorem mem_ofList {ks : List Kind} {k : Kind} : k ∈ ofList ks ↔ k ∈ ks := by
  have hinsert : ∀ s : KindSet, k ∈ ks.foldl insert s ↔ k ∈ s ∨ k ∈ ks := by
    induction ks with
    | nil => simp
    | cons j ks ih =>
      intro s
      rw [List.foldl_cons, ih, mem_insert, List.mem_cons, or_assoc]
  rw [ofList, hinsert]
  exact or_iff_right (not_mem_empty k)

/-- What has been added is taken out again, and whatever was there before. -/
theorem erase_insert_self (s : KindSet) (k : Kind) : (s.insert k).erase k = s.erase k := by
  refine ext_mem fun j ↦ ?_
  rw [mem_erase, mem_erase, mem_insert]
  exact and_congr_left fun hne ↦ or_iff_left hne

/-! ## Reading -/

theorem decode_encode (s : KindSet) : decode s.encode = .ok s := by
  obtain ⟨mask⟩ := s
  revert mask
  decide

theorem encode_of_decode {content : Bytes} {s : KindSet} (h : decode content = .ok s) :
    s.encode = content := by
  cases content with
  | nil => exact absurd h nofun
  | cons unused bits =>
    rw [decode] at h
    split at h
    · exact absurd h nofun
    · cases hks : (positions bits).mapM kindAt with
      | error e => rw [hks] at h; exact absurd h nofun
      | ok ks =>
        rw [hks] at h
        simp only [bind, Except.bind] at h
        split at h
        · rename_i heq
          rw [← Except.ok.inj h]
          exact heq
        · exact absurd h nofun

/-- The content of a bit string is accepted in one form only, that which `encode` writes. -/
theorem decode_eq_ok_iff {content : Bytes} {s : KindSet} :
    decode content = .ok s ↔ content = s.encode :=
  ⟨fun h ↦ (encode_of_decode h).symm, fun h ↦ h ▸ decode_encode s⟩

/-! ## Bits -/

/-- Every number below five is that of a kind, so a set has no room for any other. -/
theorem exists_mem_of_testBit {s : KindSet} {i : Nat} (h : s.mask.toNat.testBit i = true) :
    ∃ k ∈ s, k.index.val = i := by
  have hlt : i < 5 := BitVec.lt_of_getLsbD h
  match i, hlt with
  | 0, _ => exact ⟨.preimage, h, rfl⟩
  | 1, _ => exact ⟨.prefixed, h, rfl⟩
  | 2, _ => exact ⟨.threshold, h, rfl⟩
  | 3, _ => exact ⟨.rsa, h, rfl⟩
  | 4, _ => exact ⟨.ed25519, h, rfl⟩

theorem isSubset_iff {s t : KindSet} : s.isSubset t = true ↔ ∀ k ∈ s, k ∈ t := by
  have hbit : ∀ i, (s.mask &&& ~~~t.mask).getLsbD i = true ↔
      s.mask.getLsbD i = true ∧ t.mask.getLsbD i = false := by
    intro i
    rw [BitVec.getLsbD_and, BitVec.getLsbD_not, Bool.and_eq_true, Bool.and_eq_true,
      Bool.not_eq_true']
    exact and_congr_right fun h ↦ and_iff_right (decide_eq_true (BitVec.lt_of_getLsbD h))
  rw [isSubset, beq_iff_eq]
  constructor
  · intro h k hk
    refine Decidable.byContradiction fun hnot ↦ ?_
    have hk' := (hbit k.index).mpr ⟨hk, Bool.eq_false_iff.mpr hnot⟩
    rw [h, BitVec.getLsbD_zero] at hk'
    exact absurd hk' nofun
  · intro h
    refine BitVec.eq_of_getLsbD_eq fun i _ ↦ ?_
    rw [BitVec.getLsbD_zero, Bool.eq_false_iff]
    intro hi
    obtain ⟨hs, ht⟩ := (hbit i).mp hi
    obtain ⟨k, hk, rfl⟩ := exists_mem_of_testBit hs
    exact absurd (h k hk) (Bool.eq_false_iff.mp ht)

/-- The bits that are written are the numbers of the members. -/
theorem positions_encode (s : KindSet) :
    positions (s.encode.drop 1) = s.toList.map fun k ↦ k.index.val := by
  obtain ⟨mask⟩ := s
  revert mask
  decide

theorem exists_mem_of_mem_positions {s : KindSet} {i : Nat} (h : i ∈ positions (s.encode.drop 1)) :
    ∃ k ∈ s, k.index.val = i := by
  rw [positions_encode] at h
  obtain ⟨k, hk, hi⟩ := List.mem_map.mp h
  exact ⟨k, mem_toList.mp hk, hi⟩

/-! ## Length -/

theorem length_encode_le (s : KindSet) : s.encode.length ≤ 2 := by
  rw [encode]
  split
  · exact Nat.le_succ 1
  · exact Nat.le_refl 2

theorem length_encode_pos (s : KindSet) : 0 < s.encode.length := by
  rw [encode]
  split
  · exact Nat.one_pos
  · exact Nat.two_pos

end Hashlock.KindSet
