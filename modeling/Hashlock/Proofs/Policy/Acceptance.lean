import Hashlock.Policy
import Hashlock.Proofs.Fulfillment.Paths

/-!
# What a policy accepts

Two encodings and a message are accepted precisely when there is a fulfillment that explains them:
the first encoding is its own, the second is that of its own condition, both are within the limits,
the condition is one that the policy allows, and the fulfillment checks against it
(`verifyEncoded_eq_ok_true_iff`).

The condition is decoded from its own bytes and derived once more from the fulfillment. The two
meet in the comparison at the root: checking answers `true` only against the condition that was
derived, and a condition has one encoding.
-/

namespace Hashlock.Policy

/-! ## Decoding within limits -/

theorem decodeCondition_eq_ok_iff {policy : Policy} {bs : Bytes} {c : Condition} :
    policy.decodeCondition bs = .ok c ↔
      bs = c.encode ∧ c.fields.length ≤ policy.limits.maxLength.toNat := by
  rw [decodeCondition, Result.mapError_eq_ok_iff, Condition.decode_eq_ok_iff]

theorem decodeFulfillment_eq_ok_iff {policy : Policy} {bs : Bytes} {f : Fulfillment} :
    policy.decodeFulfillment bs = .ok f ↔
      bs = f.encode ∧ f.Constructible ∧ f.depth ≤ policy.limits.maxDepth
        ∧ f.fields.length ≤ policy.limits.maxLength.toNat := by
  rw [decodeFulfillment, Result.mapError_eq_ok_iff, Fulfillment.decode_eq_ok_iff]

/-! ## Allowed conditions -/

theorem firstDisallowed?_eq_none_iff {policy : Policy} {c : Condition} :
    policy.firstDisallowed? c = none ↔
      c.kind ∈ policy.allowedKinds ∧ ∀ k ∈ c.subtypes, k ∈ policy.allowedKinds := by
  have hallowed : ∀ k, ¬ (!policy.allowedKinds.contains k) = true ↔ k ∈ policy.allowedKinds := by
    intro k
    rw [Bool.not_eq_true', Bool.not_eq_false, KindSet.mem_iff]
  rw [firstDisallowed?, List.find?_eq_none, List.forall_mem_cons, hallowed]
  refine and_congr_right fun _ ↦ forall_congr' fun k ↦ ?_
  rw [hallowed, KindSet.mem_toList]

theorem check_eq_ok_iff {policy : Policy} {c : Condition} {u : Unit} :
    policy.check c = .ok u ↔
      c.cost ≤ policy.maxCost ∧ c.kind ∈ policy.allowedKinds
        ∧ ∀ k ∈ c.subtypes, k ∈ policy.allowedKinds := by
  rw [← firstDisallowed?_eq_none_iff, check]
  by_cases hcost : policy.maxCost < c.cost
  · rw [if_pos hcost]
    exact ⟨nofun, fun h ↦ absurd hcost (UInt64.not_lt.mpr h.1)⟩
  · rw [if_neg hcost]
    cases hkind : policy.firstDisallowed? c with
    | some k => exact ⟨nofun, fun h ↦ absurd h.2 nofun⟩
    | none => exact iff_of_true rfl ⟨UInt64.not_lt.mp hcost, rfl⟩

/-- Checking succeeds against the derived condition only. -/
theorem condition_eq_of_verify {f : Fulfillment} {c : Condition} {message : Bytes}
    (h : f.verify c message = .ok true) : c = f.condition := by
  refine Decidable.byContradiction fun hc ↦ ?_
  rw [Fulfillment.verify_of_ne hc] at h
  split at h
  · exact absurd h nofun
  · exact absurd h nofun

/-! ## Acceptance -/

/-- A fulfillment explains two encodings and a message that the policy accepts. -/
structure Accepts (policy : Policy) (fulfillment condition message : Bytes) (f : Fulfillment) :
    Prop where
  constructible : f.Constructible
  fulfillment_eq : fulfillment = f.encode
  condition_eq : condition = f.condition.encode
  fulfillment_length_le : f.fields.length ≤ policy.limits.maxLength.toNat
  condition_length_le : f.condition.fields.length ≤ policy.limits.maxLength.toNat
  depth_le : f.depth ≤ policy.limits.maxDepth
  cost_le : f.cost ≤ policy.maxCost
  kind_mem : f.kind ∈ policy.allowedKinds
  subtypes_subset : ∀ k ∈ f.condition.subtypes, k ∈ policy.allowedKinds
  verify_eq : f.verify f.condition message = .ok true

variable {policy : Policy} {fulfillment condition message : Bytes}

theorem Accepts.unique {f g : Fulfillment} (hf : policy.Accepts fulfillment condition message f)
    (hg : policy.Accepts fulfillment condition message g) : f = g := by
  have hword : g.fields.length < UInt64.size :=
    Nat.lt_of_le_of_lt hg.fulfillment_length_le policy.limits.maxLength.toNat_lt
  have hencode := hf.fulfillment_eq.symm.trans hg.fulfillment_eq
  exact Fulfillment.eq_of_encode_eq hf.constructible hg.constructible hword hencode

theorem verifyEncoded_of_accepts {f : Fulfillment}
    (h : policy.Accepts fulfillment condition message f) :
    policy.verifyEncoded fulfillment condition message = .ok true := by
  have hcheck : policy.check f.condition = .ok () := by
    refine check_eq_ok_iff.mpr ⟨h.cost_le, ?_, h.subtypes_subset⟩
    rw [h.constructible.kind_condition]
    exact h.kind_mem
  have hcondition : policy.decodeCondition condition = .ok f.condition :=
    decodeCondition_eq_ok_iff.mpr ⟨h.condition_eq, h.condition_length_le⟩
  have hfulfillment : policy.decodeFulfillment fulfillment = .ok f :=
    decodeFulfillment_eq_ok_iff.mpr
      ⟨h.fulfillment_eq, h.constructible, h.depth_le, h.fulfillment_length_le⟩
  have hverify : policy.verify f f.condition message = .ok true :=
    Result.bind_eq_ok_iff.mpr ⟨(), hcheck, Result.mapError_eq_ok_iff.mpr h.verify_eq⟩
  exact Result.bind_eq_ok_iff.mpr ⟨f.condition, hcondition,
    Result.bind_eq_ok_iff.mpr ⟨(), hcheck,
      Result.bind_eq_ok_iff.mpr ⟨f, hfulfillment, hverify⟩⟩⟩

theorem exists_accepts_of_verifyEncoded
    (h : policy.verifyEncoded fulfillment condition message = .ok true) :
    ∃ f, policy.Accepts fulfillment condition message f := by
  obtain ⟨c, hcondition, h⟩ := Result.bind_eq_ok_iff.mp h
  obtain ⟨u, hcheck, h⟩ := Result.bind_eq_ok_iff.mp h
  obtain ⟨f, hfulfillment, h⟩ := Result.bind_eq_ok_iff.mp h
  obtain ⟨u', -, h⟩ := Result.bind_eq_ok_iff.mp h
  have hverify := Result.mapError_eq_ok_iff.mp h
  -- From here on, the condition that was decoded is the one that was derived.
  obtain rfl := condition_eq_of_verify hverify
  obtain ⟨hbytes, hlen⟩ := decodeCondition_eq_ok_iff.mp hcondition
  obtain ⟨hbytes', hf, hdepth, hlen'⟩ := decodeFulfillment_eq_ok_iff.mp hfulfillment
  obtain ⟨hcost, hkind, hsubtypes⟩ := check_eq_ok_iff.mp hcheck
  rw [hf.kind_condition] at hkind
  exact ⟨f, hf, hbytes', hbytes, hlen', hlen, hdepth, hcost, hkind, hsubtypes, hverify⟩

/-- **What is accepted, and by which fulfillment.** -/
theorem verifyEncoded_eq_ok_true_iff (policy : Policy) (fulfillment condition message : Bytes) :
    (policy.verifyEncoded fulfillment condition message = .ok true ↔
        ∃ f, policy.Accepts fulfillment condition message f)
      ∧ (∀ f g, policy.Accepts fulfillment condition message f →
          policy.Accepts fulfillment condition message g → f = g)
      ∧ ∀ f : Fulfillment, f.Constructible → fulfillment = f.encode →
          policy.verifyEncoded fulfillment condition message = .ok true →
          condition = f.condition.encode := by
  refine ⟨⟨exists_accepts_of_verifyEncoded, fun ⟨f, hf⟩ ↦ verifyEncoded_of_accepts hf⟩,
    fun f g hf hg ↦ hf.unique hg, fun f hf hencode h ↦ ?_⟩
  obtain ⟨g, hg⟩ := exists_accepts_of_verifyEncoded h
  have hword : g.fields.length < UInt64.size :=
    Nat.lt_of_le_of_lt hg.fulfillment_length_le policy.limits.maxLength.toNat_lt
  obtain rfl := Fulfillment.eq_of_encode_eq hf hg.constructible hword
    (hencode.symm.trans hg.fulfillment_eq)
  exact hg.condition_eq

/-- The sample is accepted under the default policy, and with its own condition only. -/
theorem verifyEncoded_sample : ∃ f, Fulfillment.sample = .ok f ∧ f.Constructible
    ∧ (∃ g, ({} : Policy).Accepts f.encode f.condition.encode [] g)
    ∧ ∀ condition, ({} : Policy).verifyEncoded f.encode condition [] = .ok true →
      condition = f.condition.encode := by
  obtain ⟨f, h, hf⟩ := Fulfillment.exists_sample
  have haccepted : Fulfillment.sample.map
      (fun f ↦ ({} : Policy).verifyEncoded f.encode f.condition.encode []) = .ok (.ok true) := by
    decide +kernel
  rw [h] at haccepted
  have hiff := verifyEncoded_eq_ok_true_iff {} f.encode
  refine ⟨f, h, hf, (hiff f.condition.encode []).1.mp (Except.ok.inj haccepted), ?_⟩
  intro condition hcondition
  exact (hiff condition []).2.2 f hf rfl hcondition

end Hashlock.Policy
