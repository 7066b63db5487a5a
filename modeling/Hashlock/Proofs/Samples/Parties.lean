import Hashlock.Samples.Keys

/-!
# Seeds of several parties

What sets the seed of a party apart from the others is one byte, the low byte of the party's number;
the rest is the same for all. There are no more seeds than there are bytes: party `i + 256` has the
seed of party `i`, and with it the same public key.

Up to 256 parties have seeds of their own, and a 257th takes that away
(`pairwise_partyKeys_iff`, `not_pairwise_partyKeys`).
-/

namespace Hashlock.Samples

/-- Two parties have the same seed when their numbers agree in the low byte. -/
theorem partySeed_eq_iff {i j : Nat} : partySeed i = partySeed j ↔ i % 256 = j % 256 := by
  rw [partySeed, partySeed, List.cons_eq_cons, and_iff_left rfl, ← UInt8.toNat_inj,
    UInt8.toNat_ofNat', UInt8.toNat_ofNat']

/-- What is said of any two keys is said of the seeds of any two numbers below the count. -/
theorem pairwise_ne_iff_forall {count : Nat} :
    (partyKeys count).Pairwise (fun k k' ↦ k.bytes ≠ k'.bytes) ↔
      ∀ i j, i < j → j < count → partySeed i ≠ partySeed j := by
  rw [partyKeys, List.pairwise_map, List.pairwise_iff_getElem]
  constructor
  · intro h i j hij hj
    have hseeds := h i j (by rw [List.length_range]; omega) (by rwa [List.length_range]) hij
    rwa [List.getElem_range, List.getElem_range] at hseeds
  · intro h i j _ hj hij
    rw [List.length_range] at hj
    rw [List.getElem_range, List.getElem_range]
    exact h i j hij hj

/-- **Every party has a seed of its own as long as there are at most 256 of them.** -/
theorem pairwise_partyKeys_iff (count : Nat) :
    (partyKeys count).Pairwise (fun k k' ↦ k.bytes ≠ k'.bytes) ↔ count ≤ 256 := by
  rw [pairwise_ne_iff_forall]
  constructor
  · intro h
    refine Nat.not_lt.mp fun hmany ↦ ?_
    exact h 0 256 (by decide) hmany (partySeed_eq_iff.mpr rfl)
  · intro hfew i j hij hj hseeds
    rw [partySeed_eq_iff, Nat.mod_eq_of_lt (by omega), Nat.mod_eq_of_lt (by omega)] at hseeds
    exact Nat.ne_of_lt hij hseeds

/-- Of 257 parties, the last has the seed of the first, and the same public key. -/
theorem not_pairwise_partyKeys :
    ¬ (partyKeys 257).Pairwise (fun k k' ↦ k.bytes ≠ k'.bytes)
      ∧ (partyKey 0).publicKey = (partyKey 256).publicKey := by
  have hseed : partySeed 0 = partySeed 256 := partySeed_eq_iff.mpr rfl
  refine ⟨fun h ↦ ?_, ?_⟩
  · exact pairwise_ne_iff_forall.mp h 0 256 (by decide) (by decide) hseed
  · have hkey : partyKey 0 = partyKey 256 := by
      simp only [partyKey, hseed]
    rw [hkey]

end Hashlock.Samples
