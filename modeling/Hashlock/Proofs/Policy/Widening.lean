import Hashlock.Proofs.Kind.Set
import Hashlock.Proofs.Policy.Acceptance

/-!
# Wider policies

Limits and policies only decide whether there is an answer, never which one it is. An answer is a
truth value, or the reason for which a message or a key could not be checked; everything else is a
rejection, and those are what a policy adds. So a wider policy keeps every answer of a narrower one
(`verifyEncoded_widen`), and two policies that both decode an encoding decode it to the same value.

## Two runs without running twice

The ceiling and the depth are looked at in every nested value, and no proof here follows them there.
Decoding within limits is decoding exactly, together with two bounds on the value
(`Fulfillment.decode_eq_ok_iff`, `Condition.decode_eq_ok_iff`): the bounds are where the limits
appear, and they are upper bounds.
-/

namespace Hashlock.Policy

/-- No bound of the wider policy is below that of the other, and no kind is missing. -/
structure Narrower (policy wider : Policy) : Prop where
  maxLength_le : policy.limits.maxLength ≤ wider.limits.maxLength
  maxDepth_le : policy.limits.maxDepth ≤ wider.limits.maxDepth
  maxCost_le : policy.maxCost ≤ wider.maxCost
  allowedKinds_subset : policy.allowedKinds.isSubset wider.allowedKinds = true

instance (policy wider : Policy) : Decidable (policy.Narrower wider) :=
  decidable_of_iff
    (policy.limits.maxLength ≤ wider.limits.maxLength
      ∧ policy.limits.maxDepth ≤ wider.limits.maxDepth
      ∧ policy.maxCost ≤ wider.maxCost
      ∧ policy.allowedKinds.isSubset wider.allowedKinds = true)
    ⟨fun ⟨hlength, hdepth, hcost, hkinds⟩ ↦ ⟨hlength, hdepth, hcost, hkinds⟩,
      fun ⟨hlength, hdepth, hcost, hkinds⟩ ↦ ⟨hlength, hdepth, hcost, hkinds⟩⟩

variable {policy wider : Policy} {fulfillment condition message : Bytes}

/-! ## Decoding -/

/-- What a condition's encoding denotes does not depend on the policy. -/
theorem condition_eq_of_decodeCondition {other : Policy} {bs : Bytes} {c d : Condition}
    (hc : policy.decodeCondition bs = .ok c) (hd : other.decodeCondition bs = .ok d) : c = d := by
  obtain ⟨hbytes, -⟩ := decodeCondition_eq_ok_iff.mp hc
  obtain ⟨hbytes', -⟩ := decodeCondition_eq_ok_iff.mp hd
  exact Condition.encode_injective (hbytes.symm.trans hbytes')

/-- What a fulfillment's encoding denotes does not depend on the policy. -/
theorem fulfillment_eq_of_decodeFulfillment {other : Policy} {bs : Bytes} {f g : Fulfillment}
    (hf : policy.decodeFulfillment bs = .ok f) (hg : other.decodeFulfillment bs = .ok g) :
    f = g := by
  obtain ⟨hbytes, hf, -, -⟩ := decodeFulfillment_eq_ok_iff.mp hf
  obtain ⟨hbytes', hg, -, hlen⟩ := decodeFulfillment_eq_ok_iff.mp hg
  have hword := Nat.lt_of_le_of_lt hlen other.limits.maxLength.toNat_lt
  exact Fulfillment.eq_of_encode_eq hf hg hword (hbytes.symm.trans hbytes')

section Narrower

variable (h : policy.Narrower wider)

include h

theorem Narrower.decodeCondition {bs : Bytes} {c : Condition}
    (hc : policy.decodeCondition bs = .ok c) : wider.decodeCondition bs = .ok c := by
  obtain ⟨hbytes, hlen⟩ := decodeCondition_eq_ok_iff.mp hc
  exact decodeCondition_eq_ok_iff.mpr
    ⟨hbytes, Nat.le_trans hlen (UInt64.le_iff_toNat_le.mp h.maxLength_le)⟩

theorem Narrower.decodeFulfillment {bs : Bytes} {f : Fulfillment}
    (hf : policy.decodeFulfillment bs = .ok f) : wider.decodeFulfillment bs = .ok f := by
  obtain ⟨hbytes, hcons, hdepth, hlen⟩ := decodeFulfillment_eq_ok_iff.mp hf
  exact decodeFulfillment_eq_ok_iff.mpr ⟨hbytes, hcons, Nat.le_trans hdepth h.maxDepth_le,
    Nat.le_trans hlen (UInt64.le_iff_toNat_le.mp h.maxLength_le)⟩

theorem Narrower.check {c : Condition} {u : Unit} (hc : policy.check c = .ok u) :
    wider.check c = .ok u := by
  obtain ⟨hcost, hkind, hsubtypes⟩ := check_eq_ok_iff.mp hc
  have hallowed := KindSet.isSubset_iff.mp h.allowedKinds_subset
  exact check_eq_ok_iff.mpr ⟨UInt64.le_trans hcost h.maxCost_le, hallowed _ hkind,
    fun k hk ↦ hallowed k (hsubtypes k hk)⟩

end Narrower

/-! ## What is let through -/

/-- The two encodings get past the limits and the policy, as this fulfillment and this condition. -/
structure LetsThrough (policy : Policy) (fulfillment condition : Bytes) (f : Fulfillment)
    (c : Condition) : Prop where
  decodeCondition_eq : policy.decodeCondition condition = .ok c
  check_eq : policy.check c = .ok ()
  decodeFulfillment_eq : policy.decodeFulfillment fulfillment = .ok f

theorem LetsThrough.widen {f : Fulfillment} {c : Condition}
    (hlet : policy.LetsThrough fulfillment condition f c) (h : policy.Narrower wider) :
    wider.LetsThrough fulfillment condition f c :=
  ⟨h.decodeCondition hlet.decodeCondition_eq, h.check hlet.check_eq,
    h.decodeFulfillment hlet.decodeFulfillment_eq⟩

/-- Behind limits and policy the answer is that of the fulfillment. -/
theorem LetsThrough.verifyEncoded_eq {f : Fulfillment} {c : Condition}
    (h : policy.LetsThrough fulfillment condition f c) :
    policy.verifyEncoded fulfillment condition message
      = (f.verify c message).mapError .verify := by
  rw [verifyEncoded, Result.bind_of_ok h.decodeCondition_eq, Result.bind_of_ok h.check_eq,
    Result.bind_of_ok h.decodeFulfillment_eq, verify, Result.bind_of_ok h.check_eq]

theorem check_ne_error_verify {c : Condition} {e : VerifyError} :
    policy.check c ≠ .error (.verify e) := by
  intro h
  rw [check] at h
  split at h
  · cases h
  · split at h
    · cases h
    · cases h

/-- Two encodings that do not get that far are rejected, and for another reason than a fulfillment
would give. -/
theorem letsThrough_or_rejected (policy : Policy) (fulfillment condition message : Bytes) :
    (∃ f c, policy.LetsThrough fulfillment condition f c)
      ∨ ∃ rejection, policy.verifyEncoded fulfillment condition message = .error rejection
          ∧ ∀ e, rejection ≠ .verify e := by
  rw [verifyEncoded]
  cases hcondition : Condition.decode policy.limits condition with
  | error e =>
    have hc : policy.decodeCondition condition = .error (.decode e) := by
      rw [decodeCondition, hcondition]
      rfl
    exact .inr ⟨.decode e, Result.bind_of_error hc, fun _ ↦ Rejection.noConfusion⟩
  | ok c =>
    have hc : policy.decodeCondition condition = .ok c := Result.mapError_eq_ok_iff.mpr hcondition
    rw [Result.bind_of_ok hc]
    cases hcheck : policy.check c with
    | error rejection =>
      exact .inr ⟨rejection, rfl, fun e he ↦ check_ne_error_verify (he ▸ hcheck)⟩
    | ok u =>
      cases hfulfillment : Fulfillment.decode policy.limits fulfillment with
      | error e =>
        have hf : policy.decodeFulfillment fulfillment = .error (.decode e) := by
          rw [decodeFulfillment, hfulfillment]
          rfl
        exact .inr ⟨.decode e, (Result.bind_of_ok rfl).trans (Result.bind_of_error hf),
          fun _ ↦ Rejection.noConfusion⟩
      | ok f => exact .inl ⟨f, c, hc, hcheck, Result.mapError_eq_ok_iff.mpr hfulfillment⟩

/-- An answer is that of the fulfillment and the condition that the encodings denote. -/
theorem verifyEncoded_eq_answer_iff {answer : Except VerifyError Bool} :
    policy.verifyEncoded fulfillment condition message = answer.mapError .verify ↔
      ∃ f c, policy.LetsThrough fulfillment condition f c ∧ f.verify c message = answer := by
  constructor
  · intro h
    rcases letsThrough_or_rejected policy fulfillment condition message with
      ⟨f, c, hlet⟩ | ⟨rejection, hrejected, hne⟩
    · refine ⟨f, c, hlet, ?_⟩
      exact Result.eq_of_mapError_eq Rejection.verify.inj (hlet.verifyEncoded_eq.symm.trans h)
    · cases answer with
      | ok b => exact absurd (hrejected.symm.trans h) nofun
      | error e => exact absurd (Except.error.inj (hrejected.symm.trans h)) (hne e)
  · rintro ⟨f, c, hlet, rfl⟩
    exact hlet.verifyEncoded_eq

/-- **A wider policy gives the same answers, and more of them.** What a narrower policy rejects is
rejected by its limits or by itself, and what an encoding denotes is the same under any two. -/
theorem verifyEncoded_widen {policy wider : Policy} (h : policy.Narrower wider)
    (fulfillment condition message : Bytes) :
    (∀ r, policy.verifyEncoded fulfillment condition message = .ok r →
        wider.verifyEncoded fulfillment condition message = .ok r)
      ∧ (∀ e, policy.verifyEncoded fulfillment condition message = .error (.verify e) →
        wider.verifyEncoded fulfillment condition message = .error (.verify e))
      ∧ (∀ answer : Except VerifyError Bool,
        wider.verifyEncoded fulfillment condition message = answer.mapError .verify →
        policy.verifyEncoded fulfillment condition message = answer.mapError .verify
          ∨ ∃ rejection, policy.verifyEncoded fulfillment condition message = .error rejection
              ∧ ∀ e, rejection ≠ .verify e)
      ∧ (∀ bs f, policy.decodeFulfillment bs = .ok f → wider.decodeFulfillment bs = .ok f)
      ∧ (∀ bs c, policy.decodeCondition bs = .ok c → wider.decodeCondition bs = .ok c)
      ∧ (∀ (other : Policy) bs f g,
        policy.decodeFulfillment bs = .ok f → other.decodeFulfillment bs = .ok g → f = g)
      ∧ ∀ (other : Policy) bs c d,
        policy.decodeCondition bs = .ok c → other.decodeCondition bs = .ok d → c = d := by
  have hwiden : ∀ answer : Except VerifyError Bool,
      policy.verifyEncoded fulfillment condition message = answer.mapError .verify →
      wider.verifyEncoded fulfillment condition message = answer.mapError .verify := by
    intro answer hanswer
    obtain ⟨f, c, hlet, hverify⟩ := verifyEncoded_eq_answer_iff.mp hanswer
    exact verifyEncoded_eq_answer_iff.mpr ⟨f, c, hlet.widen h, hverify⟩
  refine ⟨fun r ↦ hwiden (.ok r), fun e ↦ hwiden (.error e), ?_, fun _ _ ↦ h.decodeFulfillment,
    fun _ _ ↦ h.decodeCondition, fun _ _ _ _ ↦ fulfillment_eq_of_decodeFulfillment,
    fun _ _ _ _ ↦ condition_eq_of_decodeCondition⟩
  intro answer hanswer
  rcases letsThrough_or_rejected policy fulfillment condition message with
    ⟨f, c, hlet⟩ | hrejected
  · refine .inl ?_
    rw [hlet.verifyEncoded_eq, ← (hlet.widen h).verifyEncoded_eq, hanswer]
  · exact .inr hrejected

/-- The sample nests two levels deep and admits messages of eight bytes. A policy that is just wide
enough gives both kinds of answer, so the default policy gives them, too; with a level less there is
a rejection instead. -/
theorem verifyEncoded_widen_sample : ∃ f, Fulfillment.sample = .ok f
    ∧ ({} : Policy).verifyEncoded f.encode f.condition.encode [] = .ok true
    ∧ ({} : Policy).verifyEncoded f.encode f.condition.encode (List.replicate 9 0)
        = .error (.verify (.messageTooLong 9 8))
    ∧ ∃ rejection,
        Policy.verifyEncoded { limits := ⟨128, 1⟩ } f.encode f.condition.encode []
            = .error rejection
          ∧ ∀ e, rejection ≠ .verify e := by
  obtain ⟨f, h, -⟩ := Fulfillment.exists_sample
  have htight : Narrower ⟨⟨128, 2⟩, 4096, KindSet.all.erase .rsa⟩ {} := by decide
  have hshallow : Narrower { limits := ⟨128, 1⟩ } {} := by decide
  have hanswers : Fulfillment.sample.map (fun f ↦
      [[], List.replicate 9 0].map
        (Policy.verifyEncoded ⟨⟨128, 2⟩, 4096, KindSet.all.erase .rsa⟩ f.encode f.condition.encode))
      = .ok [.ok true, .error (.verify (.messageTooLong 9 8))] := by decide +kernel
  have hnone : Fulfillment.sample.map (fun f ↦
      (Policy.verifyEncoded { limits := ⟨128, 1⟩ } f.encode f.condition.encode []).isOk)
      = .ok false := by decide +kernel
  rw [h] at hanswers hnone
  obtain ⟨hok, herror⟩ := List.cons.inj (Except.ok.inj hanswers)
  have htrue := (verifyEncoded_widen htight _ _ _).1 true hok
  refine ⟨f, h, htrue, ?_, ?_⟩
  · exact (verifyEncoded_widen htight _ _ _).2.1 _ (List.cons.inj herror).1
  · refine ((verifyEncoded_widen hshallow _ _ _).2.2.1 (.ok true) htrue).resolve_left ?_
    intro hanswer
    exact absurd ((congrArg Except.isOk hanswer).symm.trans (Except.ok.inj hnone)) nofun

end Hashlock.Policy
