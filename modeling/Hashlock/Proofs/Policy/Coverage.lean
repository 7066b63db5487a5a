import Hashlock.Proofs.Fulfillment.Nodes
import Hashlock.Proofs.Policy.Acceptance

/-!
# A policy covers whole trees

A policy is held against a single condition: one number, one kind and the subtypes. That is enough
for all there is in a fulfillment, however deep (`check_condition_covers`). The kinds of a condition
are those that its nodes show, so a kind that is not allowed cannot hide below compound nodes, and
no node is dearer than the whole.

In the other direction, a kind that a policy names as its reason is one that a node shows. For a
condition that comes from outside this need not hold: there the subtypes are a mere declaration.
-/

namespace Hashlock.Policy

variable {policy : Policy}

/-! ## Reasons -/

theorem mem_kinds_of_firstDisallowed? {c : Condition} {k : Kind}
    (h : policy.firstDisallowed? c = some k) : k ∈ c.kinds ∧ k ∉ policy.allowedKinds := by
  constructor
  · rw [Condition.mem_kinds_iff, ← KindSet.mem_toList, ← List.mem_cons]
    exact List.mem_of_find?_eq_some h
  · have hfound := List.find?_some h
    rwa [Bool.not_eq_true', ← Bool.not_eq_true, ← KindSet.mem_iff] at hfound

/-- A kind is the reason where the cost is none, and then it is the first that is not allowed. -/
theorem check_eq_kindNotAllowed_iff {c : Condition} {k : Kind} :
    policy.check c = .error (.kindNotAllowed k) ↔
      c.cost ≤ policy.maxCost ∧ policy.firstDisallowed? c = some k := by
  rw [check, ← UInt64.not_lt]
  by_cases hcost : policy.maxCost < c.cost
  · rw [if_pos hcost, Except.error.injEq]
    exact iff_of_false Rejection.noConfusion fun h ↦ h.1 hcost
  · rw [if_neg hcost, and_iff_right hcost]
    cases policy.firstDisallowed? c with
    | none => simp only [reduceCtorEq]
    | some k' => rw [Except.error.injEq, Rejection.kindNotAllowed.injEq, Option.some.injEq]

/-- Only the policy rejects a kind: nothing of the sort comes from the fulfillment. -/
theorem check_of_verify_eq_kindNotAllowed {f : Fulfillment} {c : Condition} {message : Bytes}
    {k : Kind} (h : policy.verify f c message = .error (.kindNotAllowed k)) :
    policy.check c = .error (.kindNotAllowed k) := by
  rw [verify] at h
  cases hcheck : policy.check c with
  | error e =>
    rw [hcheck] at h
    exact congrArg Except.error (Except.error.inj h)
  | ok u =>
    rw [hcheck] at h
    cases hverify : f.verify c message with
    | error e =>
      rw [hverify] at h
      exact absurd (Except.error.inj h) nofun
    | ok b =>
      rw [hverify] at h
      exact absurd h nofun

/-! ## Whole trees -/

/-- Holding the condition against a policy is holding every node against it. -/
theorem check_condition_eq_ok_iff {f : Fulfillment} (hf : f.Constructible) :
    policy.check f.condition = .ok () ↔
      f.cost ≤ policy.maxCost
        ∧ ∀ n g, (n, g) ∈ f.nodes → ∀ k, g.Mentions k → k ∈ policy.allowedKinds := by
  have hkinds : (f.condition.kind ∈ policy.allowedKinds
      ∧ ∀ k ∈ f.condition.subtypes, k ∈ policy.allowedKinds)
      ↔ ∀ k ∈ f.condition.kinds, k ∈ policy.allowedKinds := by
    simp only [Condition.mem_kinds_iff, forall_eq_or_imp]
  rw [check_eq_ok_iff, hkinds]
  refine and_congr_right fun _ ↦ ?_
  constructor
  · intro h n g hg k hk
    exact h k (hf.mem_kinds_condition_iff.mpr ⟨n, g, hg, hk⟩)
  · intro h k hk
    obtain ⟨n, g, hg, hk⟩ := hf.mem_kinds_condition_iff.mp hk
    exact h n g hg k hk

/-- **A policy that lets a condition through has let the whole tree through.** -/
theorem check_condition_covers (policy : Policy) {f : Fulfillment} (hf : f.Constructible) :
    (policy.check f.condition = .ok () ↔
        f.cost ≤ policy.maxCost
          ∧ ∀ n g, (n, g) ∈ f.nodes → ∀ k, g.Mentions k → k ∈ policy.allowedKinds)
      ∧ (∀ n g, (n, g) ∈ f.nodes →
          (n ≠ 0 → g.cost < f.cost) ∧ ∀ c ∈ g.bareConditions, c.cost < f.cost)
      ∧ (∀ c message, policy.verify f c message = .ok true →
          ∀ n g, (n, g) ∈ f.nodes →
            (∀ k, g.Mentions k → k ∈ policy.allowedKinds) ∧ g.cost ≤ policy.maxCost)
      ∧ ∀ message k, policy.verify f f.condition message = .error (.kindNotAllowed k) →
          k ∉ policy.allowedKinds ∧ ∃ n g, (n, g) ∈ f.nodes ∧ g.Mentions k := by
  refine ⟨check_condition_eq_ok_iff hf, fun n g hg ↦ hf.cost_lt hg, ?_, ?_⟩
  · intro c message h n g hg
    obtain ⟨u, hcheck, h⟩ := Result.bind_eq_ok_iff.mp h
    obtain rfl := condition_eq_of_verify (Result.mapError_eq_ok_iff.mp h)
    obtain ⟨hcost, hkinds⟩ := (check_condition_eq_ok_iff hf).mp hcheck
    exact ⟨hkinds n g hg, UInt64.le_trans (hf.cost_le_of_mem_nodes hg) hcost⟩
  · intro message k h
    obtain ⟨-, hfirst⟩ := check_eq_kindNotAllowed_iff.mp (check_of_verify_eq_kindNotAllowed h)
    obtain ⟨hk, hnot⟩ := mem_kinds_of_firstDisallowed? hfirst
    exact ⟨hnot, hf.mem_kinds_condition_iff.mp hk⟩

/-- The sample passes under the default policy. Without preimages it does not: there is one two
levels down. -/
theorem check_condition_covers_sample : ∃ f, Fulfillment.sample = .ok f ∧ f.Constructible
    ∧ (∀ n g, (n, g) ∈ f.nodes → ∀ k, g.Mentions k → k ∈ KindSet.all)
    ∧ ∃ n g, (n, g) ∈ f.nodes ∧ g.Mentions .preimage := by
  obtain ⟨f, h, hf⟩ := Fulfillment.exists_sample
  have hchecked : Fulfillment.sample.map (fun f ↦ ({} : Policy).check f.condition)
      = .ok (.ok ()) := by decide +kernel
  have hrejected : Fulfillment.sample.map (fun f ↦
      Policy.verify { allowedKinds := KindSet.all.erase .preimage } f f.condition [])
      = .ok (.error (.kindNotAllowed .preimage)) := by decide +kernel
  rw [h] at hchecked hrejected
  have hcovers := check_condition_covers {} hf
  have hcovers' := check_condition_covers { allowedKinds := KindSet.all.erase .preimage } hf
  refine ⟨f, h, hf, (hcovers.1.mp (Except.ok.inj hchecked)).2, ?_⟩
  exact (hcovers'.2.2.2 [] .preimage (Except.ok.inj hrejected)).2

end Hashlock.Policy
