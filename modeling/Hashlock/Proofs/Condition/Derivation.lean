import Hashlock.Condition.Derivation
import Hashlock.Proofs.Bytes.Order
import Hashlock.Proofs.Cost

/-!
# What derived conditions are

Deriving a condition fails where parts are out of range or a cost does not fit into a word. Where it
succeeds, the condition is the one that these equivalences name.

A threshold condition is derived from branches in a list, and the list is all that a caller can
give. What is derived depends on the branches alone: their encodings are put in order, the largest
costs are picked by size, and kinds go into a set (`ofThreshold_eq_of_perm`).
-/

namespace Hashlock.Condition

theorem ofPrefix_eq_ok_iff {p : Bytes} {max : UInt64} {nested c : Condition} :
    ofPrefix p max nested = .ok c ↔
      ∃ cost, Cost.prefixed? p.length max nested.cost = some cost
        ∧ c = compound .prefixed rfl (Contents.prefixed p max nested) cost [nested] := by
  rw [ofPrefix]
  constructor
  · intro h
    split at h
    · exact absurd h nofun
    · rename_i cost hcost
      exact ⟨cost, hcost, (Except.ok.inj h).symm⟩
  · rintro ⟨cost, hcost, rfl⟩
    rw [hcost]

theorem ofThreshold_eq_ok_iff {k : Nat} {branches : List Condition} {c : Condition} :
    ofThreshold k branches = .ok c ↔
      k ≠ 0 ∧ k ≤ branches.length
        ∧ ∃ cost, Cost.threshold? k (branches.map Condition.cost) = some cost
          ∧ c = compound .threshold rfl (Contents.threshold k branches) cost branches := by
  rw [ofThreshold]
  constructor
  · intro h
    split at h
    · exact absurd h nofun
    split at h
    · exact absurd h nofun
    split at h
    · exact absurd h nofun
    rename_i hzero hfew _ cost hcost
    exact ⟨hzero, Nat.not_lt.mp hfew, cost, hcost, (Except.ok.inj h).symm⟩
  · rintro ⟨hzero, hfew, cost, hcost, rfl⟩
    rw [if_neg hzero, if_neg (Nat.not_lt.mpr hfew), hcost]

theorem ofRsaModulus_eq_ok_iff {modulus : Bytes} {c : Condition} :
    ofRsaModulus modulus = .ok c ↔
      minModulusLength ≤ (Integer.magnitude modulus).length
        ∧ (Integer.magnitude modulus).length ≤ maxModulusLength
        ∧ c = leaf .rsa (Fingerprint.digest (Contents.rsa (Integer.magnitude modulus)))
          (Cost.rsa (UInt64.ofNat (Integer.magnitude modulus).length)) := by
  rw [ofRsaModulus]
  constructor
  · intro h
    split at h
    · exact absurd h nofun
    · rename_i hlen
      obtain ⟨hmin, hmax⟩ := not_or.mp hlen
      exact ⟨Nat.not_lt.mp hmin, Nat.not_lt.mp hmax, (Except.ok.inj h).symm⟩
  · rintro ⟨hmin, hmax, rfl⟩
    exact if_neg (not_or.mpr ⟨Nat.not_lt.mpr hmin, Nat.not_lt.mpr hmax⟩)

/-- Leading zeros of a modulus do not count, not even for whether there is a condition. -/
theorem ofRsaModulus_eq_of_magnitude_eq {modulus modulus' : Bytes}
    (h : Integer.magnitude modulus = Integer.magnitude modulus') :
    ofRsaModulus modulus = ofRsaModulus modulus' := by
  rw [ofRsaModulus, ofRsaModulus, h]

/-- The cost of a derived prefix condition, as a number. -/
theorem toNat_cost_of_ofPrefix {p : Bytes} {max : UInt64} {nested c : Condition}
    (h : ofPrefix p max nested = .ok c) :
    c.cost.toNat = p.length + max.toNat + nested.cost.toNat + 1024 := by
  obtain ⟨cost, hcost, rfl⟩ := ofPrefix_eq_ok_iff.mp h
  rw [Cost.prefixed?_eq] at hcost
  exact Cost.ofNat?_eq_some_iff.mp hcost

/-- The cost of a derived threshold condition, as a number. -/
theorem toNat_cost_of_ofThreshold {k : Nat} {branches : List Condition} {c : Condition}
    (h : ofThreshold k branches = .ok c) :
    c.cost.toNat = Cost.largest k (branches.map Condition.cost) + 1024 * branches.length := by
  obtain ⟨-, -, cost, hcost, rfl⟩ := ofThreshold_eq_ok_iff.mp h
  rw [Cost.threshold?_eq, List.length_map] at hcost
  exact Cost.ofNat?_eq_some_iff.mp hcost

/-- The cost of a derived RSA condition, as a number: the length is small enough to be squared. -/
theorem toNat_cost_of_ofRsaModulus {modulus : Bytes} {c : Condition}
    (h : ofRsaModulus modulus = .ok c) :
    c.cost.toNat = (Integer.magnitude modulus).length ^ 2 := by
  obtain ⟨-, hmax, rfl⟩ := ofRsaModulus_eq_ok_iff.mp h
  have hword : (Integer.magnitude modulus).length < UInt64.size :=
    Nat.lt_of_le_of_lt hmax (by decide)
  have hsquare : (Integer.magnitude modulus).length * (Integer.magnitude modulus).length < 2 ^ 64 :=
    Nat.lt_of_le_of_lt (Nat.mul_le_mul hmax hmax) (by decide)
  change (Cost.rsa (UInt64.ofNat (Integer.magnitude modulus).length)).toNat = _
  rw [Cost.rsa, UInt64.toNat_mul, UInt64.toNat_ofNat_of_lt' hword, Nat.mod_eq_of_lt hsquare,
    Nat.pow_two]

/-- Branches that are many enough and a threshold that is not zero leave one cause of failure. -/
theorem eq_costOverflow_of_ofThreshold {k : Nat} {branches : List Condition}
    {e : ConstructionError} (hzero : k ≠ 0) (hfew : k ≤ branches.length)
    (h : ofThreshold k branches = .error e) : e = .costOverflow := by
  rw [ofThreshold, if_neg hzero, if_neg (Nat.not_lt.mpr hfew)] at h
  split at h
  · exact (Except.error.inj h).symm
  · exact absurd h nofun

/-! ## Kinds of branches -/

theorem mem_kinds_iff {c : Condition} {k : Kind} : k ∈ c.kinds ↔ k = c.kind ∨ k ∈ c.subtypes := by
  rw [kinds, KindSet.mem_insert, or_comm]

theorem mem_nestedKinds_iff {own k : Kind} {branches : List Condition} :
    k ∈ nestedKinds own branches ↔ k ≠ own ∧ ∃ b ∈ branches, k ∈ b.kinds := by
  rw [nestedKinds, KindSet.mem_erase, KindSet.mem_unions, and_comm]
  simp only [List.mem_map, exists_exists_and_eq_and]

theorem mem_kinds_leaf_iff {own k : Kind} {fingerprint : Fingerprint} {cost : UInt64} :
    k ∈ (leaf own fingerprint cost).kinds ↔ k = own := by
  rw [mem_kinds_iff]
  exact or_iff_left (KindSet.not_mem_empty k)

/-- A compound condition takes its own kind out of its subtypes, and is itself of that kind: nothing
is lost. -/
theorem mem_kinds_compound_iff {own k : Kind} (hown : own.isCompound = true) {contents : Bytes}
    {cost : UInt64} {branches : List Condition} :
    k ∈ (compound own hown contents cost branches).kinds ↔
      k = own ∨ ∃ b ∈ branches, k ∈ b.kinds := by
  have hsubtypes : k ∈ (compound own hown contents cost branches).subtypes ↔
      k ≠ own ∧ ∃ b ∈ branches, k ∈ b.kinds := mem_nestedKinds_iff
  rw [mem_kinds_iff, hsubtypes]
  by_cases hk : k = own
  · exact iff_of_true (.inl hk) (.inl hk)
  · exact or_congr_right (and_iff_right hk)

/-! ## The order of branches -/

section Order

variable {branches branches' : List Condition}

theorem sortedEncodings_eq_of_perm (h : branches.Perm branches') :
    sortedEncodings branches = sortedEncodings branches' :=
  Bytes.sortBy_le_eq_of_perm (h.map encode)

theorem contents_threshold_eq_of_perm (k : Nat) (h : branches.Perm branches') :
    Contents.threshold k branches = Contents.threshold k branches' := by
  rw [Contents.threshold, sortedEncodings_eq_of_perm h, ← Contents.threshold]

theorem nestedKinds_eq_of_perm (own : Kind) (h : branches.Perm branches') :
    nestedKinds own branches = nestedKinds own branches' := by
  refine KindSet.ext_mem fun k ↦ ?_
  rw [mem_nestedKinds_iff, mem_nestedKinds_iff]
  simp only [h.mem_iff]

theorem compound_eq_of_perm {own : Kind} (hown : own.isCompound = true) (contents : Bytes)
    (cost : UInt64) (h : branches.Perm branches') :
    compound own hown contents cost branches = compound own hown contents cost branches' := by
  simp only [compound, nestedKinds_eq_of_perm own h]

/-- **The order of branches does not count**, not even for whether there is a condition. -/
theorem ofThreshold_eq_of_perm (k : Nat) (h : branches.Perm branches') :
    ofThreshold k branches = ofThreshold k branches' := by
  have hcost := Cost.threshold?_eq_of_perm k (h.map Condition.cost)
  rw [ofThreshold, ofThreshold, h.length_eq, hcost]
  cases Cost.threshold? k (branches'.map Condition.cost) with
  | none => rfl
  | some cost =>
    have hcompound : ∀ contents, compound .threshold rfl contents cost branches
        = compound .threshold rfl contents cost branches' := fun _ ↦ compound_eq_of_perm rfl _ _ h
    simp only [contents_threshold_eq_of_perm k h, hcompound]

end Order

end Hashlock.Condition
