import Hashlock.Proofs.Fulfillment.Nodes
import Hashlock.Proofs.Fulfillment.Paths

/-!
# Costs bound the work of checking

The cost of a condition is fixed before anything is checked. This file holds it against what a check
really does. The check is written down once more, in a form that also notes each node it reaches and
the message it finds there (`run`). Leaving the notes aside gives the check back (`snd_run`), and
the notes are the visits up to the first fault (`reached_condition_eq`).

## Where the bound comes from

Two things might grow beyond a cost. Messages grow with each prefix; but a prefix node looks at the
length before anything else and goes on only below its maximum, which the cost contains. And a
threshold condition counts its largest branches only; but a constructible node has no more branches
to run than it counts, and any so many cost no more than the largest (`Cost.sum_le_largest`).

Neither argument asks how the run went. The bound holds for all visits together
(`totalWork_visits_le_cost`), and a run that is cut short reaches some of them.
-/

namespace Hashlock.Fulfillment

/-! ## Runs -/

mutual

/-- Check a fulfillment, and note the nodes that are reached until there is a result. -/
def run : Fulfillment → Condition → Bytes → List Visit × Except VerifyError Bool
  | f@(preimage _ own), c, message => ([⟨f, message⟩], .ok (own == c))
  | f@(prefixed p max sub own), c, message =>
    if max.toNat < message.length then
      ([⟨f, message⟩], .error (.messageTooLong message.length max))
    else if own ≠ c then ([⟨f, message⟩], .ok false)
    else
      let below := run sub sub.condition (p ++ message)
      (⟨f, message⟩ :: below.1, below.2)
  | f@(threshold k subs _ own), c, message =>
    if own ≠ c then ([⟨f, message⟩], .ok false)
    else
      let below := runAll subs message
      (⟨f, message⟩ :: below.1, do return decide (k ≤ (← below.2)))
  | f@(rsa modulus signature own), c, message =>
    ([⟨f, message⟩], if own ≠ c then .ok false else Rsa.verify modulus message signature)
  | f@(ed25519 key signature own), c, message =>
    ([⟨f, message⟩], if own ≠ c then .ok false else key.verify message signature)

/-- Count the fulfillments that satisfy their own conditions, and note the nodes that are reached.
An error ends the run. -/
def runAll : List Fulfillment → Bytes → List Visit × Except VerifyError Nat
  | [], _ => ([], .ok 0)
  | f :: fs, message =>
    let first := run f f.condition message
    match first.2 with
    | .error e => (first.1, .error e)
    | .ok satisfied =>
      let others := runAll fs message
      (first.1 ++ others.1, do return (← others.2) + satisfied.toNat)

end

/-- The nodes that a check reaches before it returns, with the messages that arrive at them. -/
def reached (f : Fulfillment) (c : Condition) (message : Bytes) : List Visit := (f.run c message).1

mutual

/-- The result of a run is that of the check. -/
theorem snd_run : (f : Fulfillment) → (c : Condition) → (message : Bytes) →
    (f.run c message).2 = f.verify c message
  | preimage _ own, c, message => rfl
  | prefixed p max sub own, c, message => by
    rw [run, verify, ← snd_run sub sub.condition (p ++ message)]
    split
    · rfl
    · split
      · rfl
      · rfl
  | threshold k subs _ own, c, message => by
    rw [run, verify, ← snd_runAll subs message]
    split
    · rfl
    · rfl
  | rsa .., c, message => rfl
  | ed25519 .., c, message => rfl

theorem snd_runAll : (fs : List Fulfillment) → (message : Bytes) →
    (runAll fs message).2 = countSatisfied fs message
  | [], message => rfl
  | f :: fs, message => by
    rw [runAll, countSatisfied, ← snd_run f f.condition message, ← snd_runAll fs message]
    dsimp only
    cases (run f f.condition message).2 with
    | error e => rfl
    | ok satisfied => rfl

end

/-! ## Runs and visits -/

mutual

private theorem map_node_visits_eq (d : Nat) : (f : Fulfillment) → (message : Bytes) →
    (f.visits message).map Visit.node = (nodesAt d f).map Prod.snd
  | prefixed p _ sub _, message => by
    rw [visits, nodesAt, List.map_cons, List.map_cons, map_node_visits_eq (d + 1) sub]
  | threshold _ subs _ _, message => by
    rw [visits, nodesAt, List.map_cons, List.map_cons, map_node_visitsOfAll_eq (d + 1) subs]
  | preimage .., message | rsa .., message | ed25519 .., message => rfl

private theorem map_node_visitsOfAll_eq (d : Nat) : (fs : List Fulfillment) →
    (message : Bytes) → (visitsOfAll fs message).map Visit.node = (nodesOfAll d fs).map Prod.snd
  | [], message => rfl
  | f :: fs, message => by
    rw [visitsOfAll, nodesOfAll, List.map_append, List.map_append, map_node_visits_eq d f,
      map_node_visitsOfAll_eq d fs]

end

/-- The visits are the nodes in the same order, whatever the message. -/
theorem map_node_visits (f : Fulfillment) (message : Bytes) :
    (f.visits message).map Visit.node = f.nodes.map Prod.snd := map_node_visits_eq 0 f message

theorem Constructible.of_mem_visits {f : Fulfillment} (hf : Constructible f) {message : Bytes}
    {v : Visit} (hv : v ∈ f.visits message) : Constructible v.node := by
  have hnode : v.node ∈ f.nodes.map Prod.snd := by
    rw [← map_node_visits f message]
    exact List.mem_map_of_mem hv
  obtain ⟨⟨n, g⟩, hg, hv⟩ := List.mem_map.mp hnode
  exact hv ▸ hf.of_mem_nodes hg

/-- The visits up to the first fault, which is still among them. -/
def upToFault : List Visit → List Visit
  | [] => []
  | v :: vs => if v.fault?.isSome then [v] else v :: upToFault vs

theorem upToFault_singleton (v : Visit) : upToFault [v] = [v] := by
  rw [upToFault, upToFault, ite_self]

theorem upToFault_append (vs ws : List Visit) :
    upToFault (vs ++ ws)
      = upToFault vs ++ if (vs.findSome? Visit.fault?).isSome then [] else upToFault ws := by
  induction vs with
  | nil => rfl
  | cons v vs ih =>
    rw [List.cons_append, upToFault, upToFault, List.findSome?_cons, ih]
    cases v.fault? with
    | some e => rfl
    | none => rfl

theorem exists_eq_upToFault_append (vs : List Visit) : ∃ rest, vs = upToFault vs ++ rest := by
  induction vs with
  | nil => exact ⟨[], rfl⟩
  | cons v vs ih =>
    rw [upToFault]
    split
    · exact ⟨vs, rfl⟩
    · obtain ⟨rest, hrest⟩ := ih
      exact ⟨rest, congrArg (v :: ·) hrest⟩

/-- The branches of a threshold node are run up to the first fault in any of them. -/
theorem fst_runAll_eq {fs : List Fulfillment} {message : Bytes}
    (h : ∀ f ∈ fs, f.reached f.condition message = upToFault (f.visits message)
      ∧ f.verify f.condition message = checkVisits (f.visits message)) :
    (runAll fs message).1 = upToFault (visitsOfAll fs message) := by
  induction fs with
  | nil => rfl
  | cons f fs ih =>
    obtain ⟨⟨hreached, hverify⟩, hfs⟩ := List.forall_mem_cons.mp h
    rw [visitsOfAll, upToFault_append, ← hreached, ← ih hfs, runAll]
    dsimp only
    rw [snd_run, hverify, checkVisits]
    -- An error of the first branch is a fault among its visits.
    cases (f.visits message).findSome? Visit.fault? with
    | some e => exact (List.append_nil _).symm
    | none => rfl

/-- **What is reached are the visits up to the first fault.** -/
theorem reached_condition_eq {f : Fulfillment} (hf : Constructible f) :
    ∀ message, f.reached f.condition message = upToFault (f.visits message) := by
  refine Constructible.induction
    (motive := fun f ↦ ∀ message, f.reached f.condition message = upToFault (f.visits message))
    (fun f hf message ↦ ?_) hf
  cases f with
  | prefixed p max sub c =>
    obtain ⟨⟨-, ih⟩, -⟩ := hf
    have hown : ¬ c ≠ (prefixed p max sub c).condition := not_not_intro rfl
    rw [reached, run, visits, upToFault, fault?_prefixed]
    by_cases hlong : max.toNat < message.length
    · rw [if_pos hlong, if_pos hlong]
      rfl
    · rw [if_neg hlong, if_neg hlong, if_neg hown, ← ih]
      rfl
  | threshold k subs conds c =>
    have hown : ¬ c ≠ (threshold k subs conds c).condition := not_not_intro rfl
    have hbelow := fst_runAll_eq fun sub hsub ↦
      ⟨(hf.1 sub hsub).2 message, verify_condition_eq_checkVisits (hf.1 sub hsub).1 message⟩
    rw [reached, run, visits, upToFault, if_neg hown, ← hbelow]
    rfl
  | preimage p c => exact (upToFault_singleton _).symm
  | rsa modulus signature c => exact (upToFault_singleton _).symm
  | ed25519 key signature c => exact (upToFault_singleton _).symm

/-! ## Work -/

/-- The work at a node, its children left aside. A prefix node that rejects its message does nothing
else. The length of a preimage is counted as a word. -/
def Visit.work : Visit → Nat
  | ⟨.preimage p _, _⟩ => (UInt64.ofNat p.length).toNat
  | ⟨.prefixed p max _ _, message⟩ =>
    if max.toNat < message.length then 0 else p.length + message.length + 1024
  | ⟨.threshold _ subs conds _, _⟩ => 1024 * (subs.length + conds.length)
  | ⟨.rsa modulus _ _, _⟩ => modulus.length ^ 2
  | ⟨.ed25519 .., _⟩ => 131072

/-- The work at all of some nodes. -/
def totalWork (vs : List Visit) : Nat := (vs.map Visit.work).sum

theorem totalWork_cons (v : Visit) (vs : List Visit) :
    totalWork (v :: vs) = v.work + totalWork vs := List.sum_cons

theorem totalWork_append (vs ws : List Visit) :
    totalWork (vs ++ ws) = totalWork vs + totalWork ws := by
  rw [totalWork, List.map_append, List.sum_append, ← totalWork, ← totalWork]

theorem totalWork_singleton (v : Visit) : totalWork [v] = v.work := Nat.add_zero _

theorem totalWork_upToFault_le (vs : List Visit) : totalWork (upToFault vs) ≤ totalWork vs := by
  obtain ⟨rest, hrest⟩ := exists_eq_upToFault_append vs
  calc totalWork (upToFault vs) ≤ totalWork (upToFault vs) + totalWork rest := Nat.le_add_right _ _
    _ = totalWork vs := by rw [← totalWork_append, ← hrest]

/-- The work at a leaf is its cost. -/
theorem work_eq_cost_of_leaf {f : Fulfillment} (hf : Constructible f)
    (hleaf : f.kind.isCompound = false) (message : Bytes) :
    Visit.work ⟨f, message⟩ = f.cost.toNat := by
  have hnode := constructible_iff.mp hf
  cases f with
  | preimage p c =>
    obtain rfl : c = _ := hnode
    rfl
  | prefixed => exact absurd hleaf nofun
  | threshold => exact absurd hleaf nofun
  | rsa modulus signature c =>
    obtain ⟨hhead, -, hc⟩ := hnode
    have hcost := Condition.toNat_cost_of_ofRsaModulus hc
    rw [Integer.magnitude_eq_self hhead] at hcost
    exact hcost.symm
  | ed25519 key signature c =>
    obtain rfl : c = _ := hnode
    rfl

/-- Where no branch does more work than it costs, neither do all of them together. -/
theorem totalWork_visitsOfAll_le {fs : List Fulfillment} {message : Bytes}
    (h : ∀ f ∈ fs, totalWork (f.visits message) ≤ f.cost.toNat) :
    totalWork (visitsOfAll fs message) ≤ ((fs.map cost).map UInt64.toNat).sum := by
  induction fs with
  | nil => exact Nat.le_refl _
  | cons f fs ih =>
    obtain ⟨hf, hfs⟩ := List.forall_mem_cons.mp h
    rw [visitsOfAll, totalWork_append, List.map_cons, List.map_cons, List.sum_cons]
    exact Nat.add_le_add hf (ih hfs)

/-- No message makes all nodes together do more work than the cost says, whether or not a check
would reach them. -/
theorem totalWork_visits_le_cost {f : Fulfillment} (hf : Constructible f) :
    ∀ message, totalWork (f.visits message) ≤ f.cost.toNat := by
  refine Constructible.induction
    (motive := fun f ↦ ∀ message, totalWork (f.visits message) ≤ f.cost.toNat)
    (fun f hf message ↦ ?_) hf
  have hcons := hf.constructible
  cases f with
  | prefixed p max sub c =>
    obtain ⟨⟨-, ih⟩, hc⟩ := hf
    have hcost := Condition.toNat_cost_of_ofPrefix hc
    have hbelow : totalWork (sub.visits (p ++ message)) ≤ sub.condition.cost.toNat := ih _
    have hown : Visit.work ⟨.prefixed p max sub c, message⟩ ≤ p.length + max.toNat + 1024 := by
      rw [Visit.work]
      split
      · exact Nat.zero_le _
      · omega
    rw [visits, totalWork_cons, cost, condition]
    omega
  | threshold k subs conds c =>
    obtain ⟨hsubs, rfl, -, -, hc⟩ := hf
    have hcost := sum_cost_le_of_ofThreshold hc
    have hbelow := totalWork_visitsOfAll_le fun sub hsub ↦ (hsubs sub hsub).2 message
    rw [visits, totalWork_cons, Visit.work, cost, condition]
    omega
  | _ => exact Nat.le_of_eq ((totalWork_singleton _).trans (work_eq_cost_of_leaf hcons rfl _))

/-- **A cost bounds the work of every run**, also of one that a fault cuts short. The run is that of
the check, it reaches the visits up to the first fault, and the work at a leaf is the cost that the
leaf has by itself. -/
theorem totalWork_reached_le_cost {f : Fulfillment} (hf : Constructible f) (message : Bytes) :
    (f.run f.condition message).2 = f.verify f.condition message
      ∧ f.reached f.condition message = upToFault (f.visits message)
      ∧ totalWork (f.reached f.condition message) ≤ f.cost.toNat
      ∧ (∀ v ∈ f.reached f.condition message, v.node.kind.isCompound = false →
          v.work = v.node.cost.toNat)
      ∧ ∀ p c, ∀ v ∈ f.reached f.condition message, v.node = .preimage p c →
          p.length < UInt64.size → v.work = p.length := by
  rw [reached_condition_eq hf]
  obtain ⟨rest, hrest⟩ := exists_eq_upToFault_append (f.visits message)
  have hvisits : ∀ v ∈ upToFault (f.visits message), v ∈ f.visits message := by
    intro v hv
    rw [hrest]
    exact List.mem_append_left rest hv
  refine ⟨snd_run f f.condition message, rfl, ?_, fun v hv hleaf ↦ ?_, ?_⟩
  · exact Nat.le_trans (totalWork_upToFault_le _) (totalWork_visits_le_cost hf message)
  · exact work_eq_cost_of_leaf (hf.of_mem_visits (hvisits v hv)) hleaf v.message
  · rintro p c ⟨_, m⟩ - rfl hword
    exact UInt64.toNat_ofNat_of_lt' hword

/-- The longest message that the prefix node of the sample admits makes for all the work that the
cost allows. A longer one ends the run at that node. -/
theorem totalWork_reached_sample : ∃ f, sample = .ok f ∧ Constructible f
    ∧ totalWork (f.reached f.condition [1, 2, 3, 4, 5, 6, 7, 8]) = 3082
    ∧ totalWork (f.reached f.condition [1, 2, 3, 4, 5, 6, 7, 8, 9]) = 2048
    ∧ f.cost = 3082
    ∧ 3082 ≤ f.cost.toNat ∧ 2048 ≤ f.cost.toNat := by
  obtain ⟨f, h, hf⟩ := exists_sample
  have hwork : sample.map (fun f ↦
      (totalWork (f.reached f.condition [1, 2, 3, 4, 5, 6, 7, 8]),
        totalWork (f.reached f.condition [1, 2, 3, 4, 5, 6, 7, 8, 9]), f.cost))
      = .ok (3082, 2048, 3082) := by decide +kernel
  rw [h] at hwork
  obtain ⟨hfull, hrest⟩ := Prod.mk.inj (Except.ok.inj hwork)
  obtain ⟨hshort, hcost⟩ := Prod.mk.inj hrest
  have hle := (totalWork_reached_le_cost hf [1, 2, 3, 4, 5, 6, 7, 8]).2.2.1
  have hle' := (totalWork_reached_le_cost hf [1, 2, 3, 4, 5, 6, 7, 8, 9]).2.2.1
  rw [hfull] at hle
  rw [hshort] at hle'
  exact ⟨f, h, hf, hfull, hshort, hcost, hle, hle'⟩

end Hashlock.Fulfillment
