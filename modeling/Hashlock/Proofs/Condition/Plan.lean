import Hashlock.Proofs.Condition.Derivation
import Hashlock.Proofs.Result

/-!
# Planning conditions

A plan is a tree of constructor calls that nobody has made yet. Its exact cost is a natural number,
whatever its size, and can be told from the plan alone; carrying the plan out works in words and
stops at the first sum that does not fit. If nothing but the cost is in the way, the two agree: what
is built costs the exact number, and what cannot be built costs 2^64 or more (`Plan.costsExactly`).

That a cost overflows somewhere inside is no other cause of failure. No branch is dearer than a node
above it, so where the cost of a branch does not fit, neither does that of the whole.
-/

namespace Hashlock.Condition

/-! ## Outcomes -/

/-- What is built costs exactly `n`; and if `n` does not fit into a word, that is why nothing is. -/
def CostsExactly (built : Except ConstructionError Condition) (n : Nat) : Prop :=
  (∃ c, built = .ok c ∧ c.cost.toNat = n) ∨ (built = .error .costOverflow ∧ UInt64.size ≤ n)

theorem CostsExactly.error_iff {built : Except ConstructionError Condition} {n : Nat}
    (h : CostsExactly built n) : built = .error .costOverflow ↔ UInt64.size ≤ n := by
  rcases h with ⟨c, rfl, rfl⟩ | ⟨rfl, hn⟩
  · exact iff_of_false nofun (Nat.not_le.mpr c.cost.toNat_lt)
  · exact iff_of_true rfl hn

theorem CostsExactly.exists_ok {built : Except ConstructionError Condition} {n : Nat}
    (h : CostsExactly built n) (hn : n < UInt64.size) :
    ∃ c, built = .ok c ∧ c.cost.toNat = n := by
  rcases h with h | ⟨-, hlarge⟩
  · exact h
  · exact absurd hn (Nat.not_lt.mpr hlarge)

theorem costsExactly_ofPrefix (p : Bytes) (max : UInt64) (nested : Condition) :
    CostsExactly (ofPrefix p max nested)
      (p.length + max.toNat + nested.cost.toNat + 1024) := by
  have hcost : Cost.prefixed? p.length max nested.cost
      = Cost.ofNat? (p.length + max.toNat + nested.cost.toNat + 1024) := Cost.prefixed?_eq _ _ _
  rw [ofPrefix, hcost]
  cases hword : Cost.ofNat? (p.length + max.toNat + nested.cost.toNat + 1024) with
  | none => exact .inr ⟨rfl, Cost.ofNat?_eq_none_iff.mp hword⟩
  | some cost => exact .inl ⟨_, rfl, Cost.ofNat?_eq_some_iff.mp hword⟩

theorem costsExactly_ofThreshold {k : Nat} {branches : List Condition} (hzero : k ≠ 0)
    (hfew : k ≤ branches.length) :
    CostsExactly (ofThreshold k branches)
      (Cost.largest k (branches.map Condition.cost) + 1024 * branches.length) := by
  have hcost : Cost.threshold? k (branches.map Condition.cost)
      = Cost.ofNat? (Cost.largest k (branches.map Condition.cost) + 1024 * branches.length) := by
    rw [Cost.threshold?_eq, List.length_map]
    rfl
  rw [ofThreshold, if_neg hzero, if_neg (Nat.not_lt.mpr hfew), hcost]
  cases hword : Cost.ofNat? (Cost.largest k (branches.map Condition.cost)
      + 1024 * branches.length) with
  | none => exact .inr ⟨rfl, Cost.ofNat?_eq_none_iff.mp hword⟩
  | some cost => exact .inl ⟨_, rfl, Cost.ofNat?_eq_some_iff.mp hword⟩

/-! ## Plans -/

/-- A tree of calls, with conditions at hand among its leaves. -/
inductive Plan where
  /-- A condition that is there already. -/
  | given (condition : Condition)
  /-- The condition of a preimage. -/
  | preimage (preimage : Bytes)
  /-- A prefix and a bound for messages around a condition. -/
  | prefixed (prefixBytes : Bytes) (maxMessageLength : UInt64) (sub : Plan)
  /-- A number of branches to fulfil. -/
  | threshold (threshold : Nat) (branches : List Plan)
  /-- The condition of a signature under an RSA modulus. -/
  | rsa (modulus : Bytes)
  /-- The condition of a signature under an Ed25519 key. -/
  | ed25519 (key : Ed25519.PublicKey)

namespace Plan

mutual

/-- Make the calls, those for the branches first. -/
def carryOut : Plan → Except ConstructionError Condition
  | given c => .ok c
  | preimage p => .ok (ofPreimage p)
  | prefixed p max sub => do ofPrefix p max (← carryOut sub)
  | threshold k branches => do ofThreshold k (← carryOutAll branches)
  | rsa modulus => ofRsaModulus modulus
  | ed25519 key => .ok (ofEd25519Key key)

/-- Make the calls of several plans, one after the other. -/
def carryOutAll : List Plan → Except ConstructionError (List Condition)
  | [] => .ok []
  | plan :: plans => do
    let c ← carryOut plan
    let cs ← carryOutAll plans
    return c :: cs

end

mutual

/-- What a plan costs. -/
def exactCost : Plan → Nat
  | given c => c.cost.toNat
  | preimage p => p.length
  | prefixed p max sub => p.length + max.toNat + exactCost sub + 1024
  | threshold k branches => Cost.largestSum k (exactCosts branches) + 1024 * branches.length
  | rsa modulus => (Integer.magnitude modulus).length ^ 2
  | ed25519 _ => 131072

/-- What several plans cost, each by itself. -/
def exactCosts : List Plan → List Nat
  | [] => []
  | plan :: plans => exactCost plan :: exactCosts plans

end

mutual

/-- Nothing is wrong with the parts: thresholds and moduli are in range, and the lengths of
preimages are words. -/
def ChecksPass : Plan → Prop
  | given _ | ed25519 _ => True
  | preimage p => p.length < UInt64.size
  | prefixed _ _ sub => ChecksPass sub
  | threshold k branches => k ≠ 0 ∧ k ≤ branches.length ∧ AllPass branches
  | rsa modulus => minModulusLength ≤ (Integer.magnitude modulus).length
      ∧ (Integer.magnitude modulus).length ≤ maxModulusLength

/-- Nothing is wrong with the parts of several plans. -/
def AllPass : List Plan → Prop
  | [] => True
  | plan :: plans => ChecksPass plan ∧ AllPass plans

end

theorem exactCosts_eq_map (plans : List Plan) : exactCosts plans = plans.map exactCost := by
  induction plans with
  | nil => rfl
  | cons plan plans ih => rw [exactCosts, ih, List.map_cons]

theorem allPass_iff {plans : List Plan} : AllPass plans ↔ ∀ plan ∈ plans, plan.ChecksPass := by
  induction plans with
  | nil => exact iff_of_true trivial nofun
  | cons plan plans ih => rw [AllPass, ih, List.forall_mem_cons]

/-! ## Carrying plans out -/

/-- Branches can be built in two parts. -/
theorem carryOutAll_append (plans plans' : List Plan) :
    carryOutAll (plans ++ plans') = (do
      let cs ← carryOutAll plans
      let cs' ← carryOutAll plans'
      return cs ++ cs') := by
  induction plans with
  | nil =>
    rw [List.nil_append, carryOutAll, Result.bind_of_ok rfl]
    cases carryOutAll plans' with
    | error e => rfl
    | ok cs => rfl
  | cons plan plans ih =>
    rw [List.cons_append, carryOutAll, carryOutAll, ih]
    cases plan.carryOut with
    | error e => rfl
    | ok c =>
      cases carryOutAll plans with
      | error e => rfl
      | ok cs =>
        cases carryOutAll plans' with
        | error e => rfl
        | ok cs' => rfl

/-- Branches are all built, or one of them costs too much. -/
theorem carryOutAll_eq (plans : List Plan)
    (h : ∀ plan ∈ plans, CostsExactly plan.carryOut plan.exactCost) :
    (∃ cs, carryOutAll plans = .ok cs ∧ (cs.map Condition.cost).map UInt64.toNat = exactCosts plans)
      ∨ (carryOutAll plans = .error .costOverflow ∧ ∃ n ∈ exactCosts plans, UInt64.size ≤ n) := by
  induction plans with
  | nil => exact .inl ⟨[], rfl, rfl⟩
  | cons plan plans ih =>
    obtain ⟨hplan, hplans⟩ := List.forall_mem_cons.mp h
    rw [carryOutAll, exactCosts]
    rcases hplan with ⟨c, hc, hcost⟩ | ⟨hoverflow, hlarge⟩
    · rw [Result.bind_of_ok hc]
      rcases ih hplans with ⟨cs, hcs, hcosts⟩ | ⟨hoverflow, n, hn, hlarge⟩
      · rw [Result.bind_of_ok hcs]
        refine .inl ⟨c :: cs, rfl, ?_⟩
        rw [List.map_cons, List.map_cons, hcost, hcosts]
      · exact .inr ⟨Result.bind_of_error hoverflow, n, List.mem_cons_of_mem _ hn, hlarge⟩
    · exact .inr ⟨Result.bind_of_error hoverflow, _, List.mem_cons_self, hlarge⟩

theorem costsExactly_prefixed {p : Bytes} {max : UInt64} {sub : Plan}
    (h : CostsExactly sub.carryOut sub.exactCost) :
    CostsExactly (prefixed p max sub).carryOut (prefixed p max sub).exactCost := by
  rw [carryOut, exactCost]
  rcases h with ⟨c, hc, hcost⟩ | ⟨hoverflow, hlarge⟩
  · rw [Result.bind_of_ok hc, ← hcost]
    exact costsExactly_ofPrefix p max c
  · exact .inr ⟨Result.bind_of_error hoverflow, by omega⟩

theorem costsExactly_threshold {k : Nat} {branches : List Plan} (hzero : k ≠ 0)
    (hfew : k ≤ branches.length)
    (h : ∀ plan ∈ branches, CostsExactly plan.carryOut plan.exactCost) :
    CostsExactly (threshold k branches).carryOut (threshold k branches).exactCost := by
  rw [carryOut, exactCost]
  rcases carryOutAll_eq branches h with ⟨cs, hcs, hcosts⟩ | ⟨hoverflow, n, hn, hlarge⟩
  · have hlen := congrArg List.length hcosts
    rw [List.length_map, List.length_map, exactCosts_eq_map, List.length_map] at hlen
    rw [Result.bind_of_ok hcs, ← hcosts, ← hlen, ← Cost.largest_eq_largestSum]
    exact costsExactly_ofThreshold hzero (hlen ▸ hfew)
  · -- One branch that is too dear is enough: it is among the largest, or no larger than they are.
    have hle := Cost.le_largestSum hn hzero
    exact .inr ⟨Result.bind_of_error hoverflow, by omega⟩

theorem costsExactly_rsa {modulus : Bytes}
    (hmin : minModulusLength ≤ (Integer.magnitude modulus).length)
    (hmax : (Integer.magnitude modulus).length ≤ maxModulusLength) :
    CostsExactly (rsa modulus).carryOut (rsa modulus).exactCost := by
  have hc := ofRsaModulus_eq_ok_iff.mpr ⟨hmin, hmax, rfl⟩
  rw [carryOut, exactCost]
  exact .inl ⟨_, hc, toNat_cost_of_ofRsaModulus hc⟩

mutual

/-- **Carrying out a plan gives its exact cost, or fails because that does not fit.** -/
theorem costsExactly : (plan : Plan) → plan.ChecksPass → CostsExactly plan.carryOut plan.exactCost
  | given c, _ => .inl ⟨c, rfl, rfl⟩
  | preimage p, h => .inl ⟨ofPreimage p, rfl, UInt64.toNat_ofNat_of_lt' h⟩
  | prefixed _ _ sub, h => costsExactly_prefixed (costsExactly sub h)
  | threshold _ branches, ⟨hzero, hfew, h⟩ =>
    costsExactly_threshold hzero hfew (costsExactly_of_mem branches h)
  | rsa _, ⟨hmin, hmax⟩ => costsExactly_rsa hmin hmax
  | ed25519 key, _ => .inl ⟨ofEd25519Key key, rfl, rfl⟩

theorem costsExactly_of_mem : (plans : List Plan) → AllPass plans →
    ∀ plan ∈ plans, CostsExactly plan.carryOut plan.exactCost
  | [], _ => nofun
  | plan :: plans, ⟨h, hs⟩ =>
    List.forall_mem_cons.mpr ⟨costsExactly plan h, costsExactly_of_mem plans hs⟩

end

end Plan

end Hashlock.Condition
