import Hashlock.Proofs.Condition.Order
import Hashlock.Proofs.Fulfillment.Commitment
import Hashlock.Proofs.Fulfillment.Size
import Hashlock.Samples.Fulfillments

/-!
# The arrangement of branches

A threshold node keeps its branches in the order of their encodings, so it does not matter how they
were arranged when they were given. For the condition and for the encoding this is so because both
are made from sorted byte strings. For the node itself it takes more: where two branches had the
same encoding, the sorting procedure would leave them as they were given, and the two nodes could
differ in what is not written. They do not, since a fulfillment can be told from its encoding
(`ofThreshold_stable`).

What fails, fails for every arrangement with the same error: the counts do not depend on it, and
neither does the sum of the largest costs.
-/

namespace Hashlock.Fulfillment

variable {subs subs' : List Fulfillment} {conds conds' : List Condition}

/-- A threshold node depends on its branches through the node that holds them in order. -/
theorem map_ofThreshold_eq_of_perm {β : Type} (k : Nat) (hsubs : subs.Perm subs')
    (hconds : conds.Perm conds') {g : Fulfillment → β}
    (hg : ∀ c, g (threshold k (Bytes.sortOn encode subs) (Condition.sort conds) c)
      = g (threshold k (Bytes.sortOn encode subs') (Condition.sort conds') c)) :
    (ofThreshold k subs conds).map g = (ofThreshold k subs' conds').map g := by
  by_cases hzero : k = 0
  · rw [ofThreshold, ofThreshold, if_pos hzero, if_pos hzero]
  rcases Nat.lt_trichotomy subs'.length k with hfew | hlen | hmany
  · rw [ofThreshold, ofThreshold, hsubs.length_eq, if_neg hzero, if_neg hzero, if_pos hfew,
      if_pos hfew]
  · rw [ofThreshold_eq_map hzero (hsubs.length_eq.trans hlen) (.refl _),
      ofThreshold_eq_map hzero hlen (branches_perm hsubs hconds)]
    cases Condition.ofThreshold k (branches subs conds) with
    | error e => rfl
    | ok c => exact congrArg Except.ok (hg c)
  · rw [ofThreshold, ofThreshold, hsubs.length_eq, if_neg hzero, if_neg hzero,
      if_neg (Nat.lt_asymm hmany), if_neg (Nat.lt_asymm hmany), if_pos hmany, if_pos hmany]

theorem encode_threshold_eq_of_perm (k : Nat) (c : Condition) (hsubs : subs.Perm subs')
    (hconds : conds.Perm conds') :
    (threshold k (Bytes.sortOn encode subs) (Condition.sort conds) c).encode
      = (threshold k (Bytes.sortOn encode subs') (Condition.sort conds') c).encode := by
  have hset : (Bytes.sortOn encode subs).flatMap encode
      = (Bytes.sortOn encode subs').flatMap encode := by
    rw [List.flatMap_def, List.flatMap_def, Bytes.map_sortOn_eq_of_perm hsubs]
  rw [encode, encode, fields_threshold, fields_threshold, hset, Condition.sort_eq_of_perm hconds]
  rfl

theorem ofThreshold_eq_of_perm (k : Nat) (hsubs : subs.Perm subs') (hconds : conds.Perm conds')
    (h : ∀ f ∈ subs, Constructible f ∧ f.PreimagesFit) :
    ofThreshold k subs conds = ofThreshold k subs' conds' := by
  have hsorted : Bytes.sortOn encode subs = Bytes.sortOn encode subs' := by
    refine Bytes.sortOn_eq_of_perm (fun f hf g hg hencode ↦ ?_) hsubs
    exact (h f hf).1.eq_of_encode_eq (h g hg).1 (h g hg).2 hencode
  have hmap := map_ofThreshold_eq_of_perm k hsubs hconds (g := id) fun c ↦ by
    rw [hsorted, Condition.sort_eq_of_perm hconds]
  rwa [Except.map_id] at hmap

/-- A threshold node holds the branches that it was given, each on its own side. -/
theorem perm_of_ofThreshold_eq_ok {k : Nat} {f : Fulfillment}
    (h : ofThreshold k subs conds = .ok f) :
    f.children.Perm subs ∧ f.bareConditions.Perm conds := by
  obtain ⟨-, c, -, rfl⟩ := ofThreshold_eq_ok_iff.mp h
  exact ⟨Bytes.sortOn_perm subs, Condition.sort_perm conds⟩

/-- **The arrangement of branches does not count.** Fulfillments and encodings come out the same, or
the same error does, and no branch is lost. -/
theorem ofThreshold_stable (k : Nat) (hsubs : subs'.Perm subs) (hconds : conds'.Perm conds) :
    ((∀ f ∈ subs, Constructible f ∧ f.PreimagesFit) →
        ofThreshold k subs' conds' = ofThreshold k subs conds)
      ∧ (ofThreshold k subs' conds').map (fun f ↦ (f.condition, f.encode))
          = (ofThreshold k subs conds).map (fun f ↦ (f.condition, f.encode))
      ∧ (∀ f, ofThreshold k subs conds = .ok f →
          f.children.Perm subs ∧ f.bareConditions.Perm conds)
      ∧ ((∀ f ∈ subs, Constructible f ∧ f.PreimagesFit) →
          (Samples.ThresholdParts.mk k subs conds).reversed.build
            = (Samples.ThresholdParts.mk k subs conds).build) := by
  refine ⟨fun h ↦ ?_, ?_, fun f ↦ perm_of_ofThreshold_eq_ok, fun h ↦ ?_⟩
  · exact (ofThreshold_eq_of_perm k hsubs.symm hconds.symm h).symm
  · refine map_ofThreshold_eq_of_perm k hsubs hconds fun c ↦ ?_
    exact congrArg (Prod.mk c) (encode_threshold_eq_of_perm k c hsubs hconds)
  · exact (ofThreshold_eq_of_perm k (List.reverse_perm _).symm (List.reverse_perm _).symm h).symm

/-- Three branches, of which two are equal and one is a node of its own, beside two bare conditions:
turned around and shuffled, they make up the same node. -/
theorem ofThreshold_stable_three : ∃ sub f,
    ofPrefix [0x50] 8 (ofPreimage [0x01]) = .ok sub
      ∧ ofThreshold 3 [sub, ofPreimage [0x02], ofPreimage [0x02]]
          [Condition.ofPreimage [0x03], Condition.ofPreimage [0x04]] = .ok f
      ∧ ofThreshold 3 [ofPreimage [0x02], sub, ofPreimage [0x02]]
          [Condition.ofPreimage [0x04], Condition.ofPreimage [0x03]] = .ok f
      ∧ f.children.Perm [sub, ofPreimage [0x02], ofPreimage [0x02]] := by
  have hbuilt : (do
      let sub ← ofPrefix [0x50] 8 (ofPreimage [0x01])
      ofThreshold 3 [sub, ofPreimage [0x02], ofPreimage [0x02]]
        [Condition.ofPreimage [0x03], Condition.ofPreimage [0x04]]).isOk = true := by
    decide +kernel
  obtain ⟨f, hf⟩ := Result.exists_eq_ok_of_isOk hbuilt
  obtain ⟨sub, hsub, hf⟩ := Result.bind_eq_ok_iff.mp hf
  have hleaf : ∀ b, Constructible (ofPreimage [b]) ∧ (ofPreimage [b]).PreimagesFit := fun b ↦
    ⟨.ofPreimage [b], preimagesFit_preimage_iff.mpr (by rw [List.length_singleton]; decide)⟩
  have hnode : Constructible sub ∧ sub.PreimagesFit := by
    refine ⟨.ofPrefix (.ofPreimage _) hsub, preimagesFit_iff.mpr ?_⟩
    obtain ⟨c, -, rfl⟩ := ofPrefix_eq_ok_iff.mp hsub
    exact ⟨nofun, fun g hg ↦ List.mem_singleton.mp hg ▸ (hleaf 0x01).2⟩
  have hfit : ∀ g ∈ [sub, ofPreimage [0x02], ofPreimage [0x02]],
      Constructible g ∧ g.PreimagesFit := by
    simp only [List.forall_mem_cons, hnode, hleaf, List.not_mem_nil, false_imp_iff, implies_true,
      and_self]
  obtain ⟨hstable, -, hbranches, -⟩ := ofThreshold_stable 3 (.swap _ _ _)
    (.swap _ _ _ : [Condition.ofPreimage [0x04], Condition.ofPreimage [0x03]].Perm _)
  exact ⟨sub, f, hsub, hf, (hstable hfit).trans hf, (hbranches f hf).1⟩

end Hashlock.Fulfillment
