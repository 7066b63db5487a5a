import Hashlock.Proofs.Condition.Plan
import Hashlock.Proofs.Fulfillment.Commitment

/-!
# Planning fulfillments

A plan for a fulfillment is a tree of constructor calls like one for a condition, and what it costs
is decided by its public data: leave the signatures away and what remains is a plan for a condition
(`Plan.published`). Both are carried out alike, so the exact costs of conditions are those of
fulfillments (`Plan.map_carryOut`, `exact_costs`).
-/

namespace Hashlock.Fulfillment

/-- A tree of calls, with fulfillments at hand among its leaves. -/
inductive Plan where
  /-- A fulfillment that is there already. -/
  | given (f : Fulfillment)
  /-- A revealed preimage. -/
  | preimage (preimage : Bytes)
  /-- A prefix and a bound for messages around a fulfillment. -/
  | prefixed (prefixBytes : Bytes) (maxMessageLength : UInt64) (sub : Plan)
  /-- Fulfilled branches, and those that are not fulfilled. -/
  | threshold (threshold : Nat) (subs : List Plan) (subconditions : List Condition.Plan)
  /-- A signature under an RSA modulus. -/
  | rsa (modulus signature : Bytes)
  /-- A signature under an Ed25519 key. -/
  | ed25519 (key : Ed25519.PublicKey) (signature : Ed25519.Signature)

namespace Plan

mutual

/-- Make the calls, those for the branches first. -/
def carryOut : Plan → Except ConstructionError Fulfillment
  | given f => .ok f
  | preimage p => .ok (ofPreimage p)
  | prefixed p max sub => do ofPrefix p max (← carryOut sub)
  | threshold k subs conds => do
    let fs ← carryOutAll subs
    let cs ← Condition.Plan.carryOutAll conds
    ofThreshold k fs cs
  | rsa modulus signature => ofRsa modulus signature
  | ed25519 key signature => .ok (ofEd25519 key signature)

/-- Make the calls of several plans, one after the other. -/
def carryOutAll : List Plan → Except ConstructionError (List Fulfillment)
  | [] => .ok []
  | plan :: plans => do
    let f ← carryOut plan
    let fs ← carryOutAll plans
    return f :: fs

end

mutual

/-- The plan for the condition, from public data. -/
def published : Plan → Condition.Plan
  | given f => .given f.condition
  | preimage p => .preimage p
  | prefixed p max sub => .prefixed p max (published sub)
  | threshold k subs conds => .threshold k (publishedAll subs ++ conds)
  | rsa modulus _ => .rsa modulus
  | ed25519 key _ => .ed25519 key

/-- The plans for several conditions. -/
def publishedAll : List Plan → List Condition.Plan
  | [] => []
  | plan :: plans => published plan :: publishedAll plans

end

mutual

/-- Nothing is wrong with the parts: there are as many fulfilled branches as the threshold says, and
signatures are as long as their moduli. -/
def ChecksPass : Plan → Prop
  | given _ | ed25519 .. => True
  | preimage p => p.length < UInt64.size
  | prefixed _ _ sub => ChecksPass sub
  | threshold k subs conds =>
    k ≠ 0 ∧ subs.length = k ∧ AllPass subs ∧ Condition.Plan.AllPass conds
  | rsa modulus signature => Condition.minModulusLength ≤ (Integer.magnitude modulus).length
      ∧ (Integer.magnitude modulus).length ≤ Condition.maxModulusLength
      ∧ signature.length = (Integer.magnitude modulus).length

/-- Nothing is wrong with the parts of several plans. -/
def AllPass : List Plan → Prop
  | [] => True
  | plan :: plans => ChecksPass plan ∧ AllPass plans

end

/-- What a plan costs. -/
def exactCost (plan : Plan) : Nat := plan.published.exactCost

theorem publishedAll_eq_map (plans : List Plan) : publishedAll plans = plans.map published := by
  induction plans with
  | nil => rfl
  | cons plan plans ih => rw [publishedAll, ih, List.map_cons]

/-! ## Public data -/

mutual

theorem checksPass_published : (plan : Plan) → plan.ChecksPass → plan.published.ChecksPass
  | given _, _ | ed25519 .., _ => trivial
  | preimage _, h => h
  | prefixed _ _ sub, h => checksPass_published sub h
  | threshold k subs conds, ⟨hzero, hlen, hsubs, hconds⟩ => by
    have hall := allPass_publishedAll subs hsubs
    rw [published, Condition.Plan.ChecksPass, List.length_append, publishedAll_eq_map,
      List.length_map, Condition.Plan.allPass_iff, List.forall_mem_append, ← publishedAll_eq_map]
    exact ⟨hzero, by omega, Condition.Plan.allPass_iff.mp hall,
      Condition.Plan.allPass_iff.mp hconds⟩
  | rsa .., ⟨hmin, hmax, _⟩ => ⟨hmin, hmax⟩

theorem allPass_publishedAll : (plans : List Plan) → AllPass plans →
    Condition.Plan.AllPass (publishedAll plans)
  | [], _ => trivial
  | plan :: plans, ⟨h, hs⟩ => ⟨checksPass_published plan h, allPass_publishedAll plans hs⟩

end

/-! ## Carrying plans out -/

theorem length_of_carryOutAll {plans : List Plan} {fs : List Fulfillment}
    (h : carryOutAll plans = .ok fs) : fs.length = plans.length := by
  induction plans generalizing fs with
  | nil =>
    obtain rfl := Except.ok.inj h
    rfl
  | cons plan plans ih =>
    obtain ⟨f, -, h⟩ := Result.bind_eq_ok_iff.mp h
    obtain ⟨fs', hfs, h⟩ := Result.bind_eq_ok_iff.mp h
    obtain rfl := Result.pure_eq_ok_iff.mp h
    exact congrArg (· + 1) (ih hfs)

theorem map_condition_ofPrefix (p : Bytes) (max : UInt64) (sub : Fulfillment) :
    (ofPrefix p max sub).map condition = Condition.ofPrefix p max sub.condition := by
  rw [ofPrefix]
  cases Condition.ofPrefix p max sub.condition with
  | error e => rfl
  | ok c => rfl

theorem map_condition_ofThreshold {k : Nat} {fs : List Fulfillment} {cs : List Condition}
    (hzero : k ≠ 0) (hlen : fs.length = k) :
    (ofThreshold k fs cs).map condition = Condition.ofThreshold k (branches fs cs) := by
  rw [ofThreshold_eq_map hzero hlen (.refl _)]
  cases Condition.ofThreshold k (branches fs cs) with
  | error e => rfl
  | ok c => rfl

theorem map_condition_ofRsa {modulus signature : Bytes}
    (hlen : signature.length = (Integer.magnitude modulus).length) :
    (ofRsa modulus signature).map condition = Condition.ofRsaModulus modulus := by
  have hmagnitude := Integer.magnitude_eq_self (Integer.head?_magnitude modulus)
  rw [ofRsa, ← Condition.ofRsaModulus_eq_of_magnitude_eq hmagnitude]
  cases Condition.ofRsaModulus (Integer.magnitude modulus) with
  | error e => rfl
  | ok c => exact congrArg (Except.map condition) (if_neg (not_not_intro hlen))

/-- A node is built from the conditions of its branches, and so is its condition. -/
theorem map_carryOut_threshold {k : Nat} {subs : List Plan} {conds : List Condition.Plan}
    (hzero : k ≠ 0) (hlen : subs.length = k)
    (hsubs : (carryOutAll subs).map (List.map condition)
      = Condition.Plan.carryOutAll (publishedAll subs)) :
    (threshold k subs conds).carryOut.map condition
      = (threshold k subs conds).published.carryOut := by
  rw [carryOut, published, Condition.Plan.carryOut, Condition.Plan.carryOutAll_append, ← hsubs]
  cases hfs : carryOutAll subs with
  | error e => rfl
  | ok fs =>
    cases Condition.Plan.carryOutAll conds with
    | error e => rfl
    | ok cs =>
      exact map_condition_ofThreshold hzero ((length_of_carryOutAll hfs).trans hlen)

mutual

/-- The condition of what is built is what the public data says. -/
theorem map_carryOut : (plan : Plan) → plan.ChecksPass →
    plan.carryOut.map condition = plan.published.carryOut
  | given _, _ | preimage _, _ | ed25519 .., _ => rfl
  | prefixed p max sub, h => by
    rw [carryOut, published, Condition.Plan.carryOut, ← map_carryOut sub h]
    cases carryOut sub with
    | error e => rfl
    | ok f => exact map_condition_ofPrefix p max f
  | threshold _ subs _, ⟨hzero, hlen, hsubs, _⟩ =>
    map_carryOut_threshold hzero hlen (map_carryOutAll subs hsubs)
  | rsa .., ⟨_, _, hlen⟩ => map_condition_ofRsa hlen

theorem map_carryOutAll : (plans : List Plan) → AllPass plans →
    (carryOutAll plans).map (List.map condition)
      = Condition.Plan.carryOutAll (publishedAll plans)
  | [], _ => rfl
  | plan :: plans, ⟨h, hs⟩ => by
    rw [carryOutAll, publishedAll, Condition.Plan.carryOutAll, ← map_carryOut plan h,
      ← map_carryOutAll plans hs]
    cases carryOut plan with
    | error e => rfl
    | ok f =>
      cases carryOutAll plans with
      | error e => rfl
      | ok fs => rfl

end

/-- **Carrying out a plan gives its exact cost, or fails because that does not fit.** -/
theorem carryOut_eq (plan : Plan) (h : plan.ChecksPass) :
    (∃ f, plan.carryOut = .ok f ∧ f.cost.toNat = plan.exactCost)
      ∨ (plan.carryOut = .error .costOverflow ∧ UInt64.size ≤ plan.exactCost) := by
  have hcosts := plan.published.costsExactly (checksPass_published plan h)
  rw [← map_carryOut plan h] at hcosts
  rcases hcosts with ⟨c, hc, hcost⟩ | ⟨hoverflow, hlarge⟩
  · obtain ⟨f, hf, rfl⟩ := Result.map_eq_ok_iff.mp hc
    exact .inl ⟨f, hf, hcost⟩
  · exact .inr ⟨Result.map_eq_error_iff.mp hoverflow, hlarge⟩

end Plan

/-! ## Main result -/

/-- **Costs are exact.** The two sums of words are sums of natural numbers, where these fit; and so
is the cost of whatever is built, however deep, the one failure left being that the number does not
fit. -/
theorem exact_costs :
    (∀ k costs, ∃ greatest,
        IsGreatest (Cost.choiceSums (min k costs.length) (costs.map UInt64.toNat)) greatest
          ∧ (∀ v, Cost.threshold? k costs = some v ↔ v.toNat = 1024 * costs.length + greatest)
          ∧ (Cost.threshold? k costs = none ↔ UInt64.size ≤ 1024 * costs.length + greatest))
      ∧ (∀ prefixLength max nested,
        (∀ v, Cost.prefixed? prefixLength max nested = some v ↔
            v.toNat = prefixLength + max.toNat + nested.toNat + 1024)
          ∧ (Cost.prefixed? prefixLength max nested = none ↔
            UInt64.size ≤ prefixLength + max.toNat + nested.toNat + 1024))
      ∧ (∀ k ns, IsGreatest (Cost.choiceSums (min k ns.length) ns) (Cost.largestSum k ns))
      ∧ (∀ plan : Condition.Plan, plan.ChecksPass →
        (plan.carryOut = .error .costOverflow ↔ UInt64.size ≤ plan.exactCost)
          ∧ (plan.exactCost < UInt64.size →
            ∃ c, plan.carryOut = .ok c ∧ c.cost.toNat = plan.exactCost))
      ∧ ∀ plan : Plan, plan.ChecksPass →
        (plan.carryOut = .error .costOverflow ↔ UInt64.size ≤ plan.exactCost)
          ∧ (plan.exactCost < UInt64.size →
            ∃ f, plan.carryOut = .ok f ∧ f.cost.toNat = plan.exactCost) := by
  refine ⟨fun k costs ↦ ?_, fun prefixLength max nested ↦ ?_, Cost.isGreatest_largestSum,
    fun plan h ↦ ?_, fun plan h ↦ ?_⟩
  · have hgreatest := Cost.isGreatest_largestSum k (costs.map UInt64.toNat)
    have hcost : Cost.threshold? k costs = Cost.ofNat?
        (1024 * costs.length + Cost.largestSum k (costs.map UInt64.toNat)) := by
      rw [Cost.threshold?_eq, Cost.largest_eq_largestSum, Nat.add_comm]
      rfl
    rw [List.length_map] at hgreatest
    rw [hcost]
    exact ⟨_, hgreatest, fun v ↦ Cost.ofNat?_eq_some_iff, Cost.ofNat?_eq_none_iff⟩
  · rw [Cost.prefixed?_eq]
    exact ⟨fun v ↦ Cost.ofNat?_eq_some_iff, Cost.ofNat?_eq_none_iff⟩
  · exact ⟨(plan.costsExactly h).error_iff, (plan.costsExactly h).exists_ok⟩
  · rcases plan.carryOut_eq h with ⟨f, hf, hcost⟩ | ⟨hoverflow, hlarge⟩
    · refine ⟨?_, fun _ ↦ ⟨f, hf, hcost⟩⟩
      rw [hf, ← hcost]
      exact iff_of_false nofun (Nat.not_le.mpr f.cost.toNat_lt)
    · exact ⟨iff_of_true hoverflow hlarge, fun hlt ↦ absurd hlt (Nat.not_lt.mpr hlarge)⟩

/-- One of two preimages costs as much as the longer one and the overhead for both. A prefix for
messages of any length does not fit, and neither does what is built around it. -/
theorem exact_costs_of_plans :
    (∃ f, Plan.carryOut (.threshold 1 [.preimage [1]] [.preimage [2, 3]]) = .ok f
        ∧ f.cost.toNat = 2050)
      ∧ (∃ c, Condition.Plan.carryOut (.threshold 1 [.preimage [1], .preimage [2, 3]]) = .ok c
        ∧ c.cost.toNat = 2050)
      ∧ Plan.carryOut (.threshold 1 [.prefixed [] 0xffffffffffffffff (.preimage [])] [])
        = .error .costOverflow := by
  obtain ⟨-, -, -, hconditions, hfulfillments⟩ := exact_costs
  have hnone : ([] : Bytes).length < UInt64.size := by decide
  have hone : ([1] : Bytes).length < UInt64.size := by decide
  have htwo : ([2, 3] : Bytes).length < UInt64.size := by decide
  refine ⟨?_, ?_, ?_⟩
  · exact (hfulfillments (.threshold 1 [.preimage [1]] [.preimage [2, 3]])
      ⟨by decide, rfl, ⟨hone, trivial⟩, htwo, trivial⟩).2 (by decide)
  · exact (hconditions (.threshold 1 [.preimage [1], .preimage [2, 3]])
      ⟨by decide, by decide, hone, htwo, trivial⟩).2 (by decide)
  · exact (hfulfillments (.threshold 1 [.prefixed [] 0xffffffffffffffff (.preimage [])] [])
      ⟨by decide, rfl, ⟨hnone, trivial⟩, trivial⟩).1.mpr (by decide)

end Hashlock.Fulfillment
