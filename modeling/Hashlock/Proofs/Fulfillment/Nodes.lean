import Hashlock.Fulfillment.Nodes
import Hashlock.Proofs.Fulfillment.Constructible

/-!
# What a condition says about the nodes

A condition is flat: one number for the cost and five bits for the kinds, whatever stands below.
What it says about the nodes of a fulfillment is found out level by level. One equation lists the
nodes of a tree from those of its children (`nodes_eq`), one statement for a single level says how
the condition of a node comes from what is right below it, and `Constructible.induction_children`
puts the levels together.

## Kinds

Each compound condition takes its own kind out of its subtypes, and a subtype may go missing and
come back on the way up. The set to look at is `Condition.kinds`, the subtypes together with the
kind: nothing is ever taken out of that, so it holds what is in the tree and nothing else
(`Constructible.mem_kinds_condition_iff`).

## Costs

A threshold condition counts its largest branches only. There is at least one to count, so each
branch is no dearer than what is counted, and the overhead makes it cheaper
(`Constructible.cost_lt`).
-/

namespace Hashlock.Fulfillment

/-! ## Nodes and their children -/

/-- What kinds a node shows without its children: its own, and those that its bare conditions have
or declare. -/
def Mentions (f : Fulfillment) (k : Kind) : Prop :=
  k = f.kind ∨ ∃ c ∈ f.bareConditions, k = c.kind ∨ k ∈ c.subtypes

theorem mentions_iff {f : Fulfillment} {k : Kind} :
    f.Mentions k ↔ k = f.kind ∨ ∃ c ∈ f.bareConditions, k ∈ c.kinds := by
  simp only [Mentions, Condition.mem_kinds_iff]

mutual

private theorem nodesAt_succ (d : Nat) : (f : Fulfillment) →
    nodesAt (d + 1) f = (nodesAt d f).map fun n ↦ (n.1 + 1, n.2)
  | prefixed _ _ sub _ => by rw [nodesAt, nodesAt, List.map_cons, nodesAt_succ (d + 1) sub]
  | threshold _ subs _ _ => by
    rw [nodesAt, nodesAt, List.map_cons, nodesOfAll_succ (d + 1) subs]
  | preimage .. | rsa .. | ed25519 .. => rfl

private theorem nodesOfAll_succ (d : Nat) : (fs : List Fulfillment) →
    nodesOfAll (d + 1) fs = (nodesOfAll d fs).map fun n ↦ (n.1 + 1, n.2)
  | [] => rfl
  | f :: fs => by
    rw [nodesOfAll, nodesOfAll, List.map_append, nodesAt_succ d f, nodesOfAll_succ d fs]

end

theorem nodesOfAll_eq_flatMap (d : Nat) (fs : List Fulfillment) :
    nodesOfAll d fs = fs.flatMap (nodesAt d) := by
  induction fs with
  | nil => rfl
  | cons f fs ih => rw [nodesOfAll, ih, List.flatMap_cons]

/-- The root comes first, and then the nodes of its children, one step further away. -/
theorem nodes_eq (f : Fulfillment) :
    f.nodes = (0, f) :: (f.children.flatMap nodes).map fun n ↦ (n.1 + 1, n.2) := by
  have hchildren : ∀ fs : List Fulfillment,
      (fs.flatMap nodes).map (fun n ↦ (n.1 + 1, n.2)) = nodesOfAll 1 fs := by
    intro fs
    rw [nodesOfAll_succ, nodesOfAll_eq_flatMap]
    rfl
  rw [hchildren]
  cases f with
  | prefixed p max sub c => exact congrArg _ (List.append_nil _).symm
  | threshold k subs conds c => rfl
  | preimage p c => rfl
  | rsa modulus signature c => rfl
  | ed25519 key signature c => rfl

theorem mem_nodes_iff {f g : Fulfillment} {n : Nat} :
    (n, g) ∈ f.nodes ↔
      (n = 0 ∧ g = f) ∨ ∃ m, n = m + 1 ∧ ∃ sub ∈ f.children, (m, g) ∈ sub.nodes := by
  rw [nodes_eq, List.mem_cons, Prod.mk.injEq]
  refine or_congr_right ?_
  simp only [List.mem_map, List.mem_flatMap, Prod.exists, Prod.mk.injEq]
  constructor
  · rintro ⟨m, _, ⟨sub, hsub, h⟩, rfl, rfl⟩
    exact ⟨m, rfl, sub, hsub, h⟩
  · rintro ⟨m, rfl, sub, hsub, h⟩
    exact ⟨m, g, ⟨sub, hsub, h⟩, rfl, rfl⟩

theorem root_mem_nodes (f : Fulfillment) : (0, f) ∈ f.nodes :=
  mem_nodes_iff.mpr (.inl ⟨rfl, rfl⟩)

theorem mem_nodes_of_mem_children {f sub g : Fulfillment} {n : Nat} (hsub : sub ∈ f.children)
    (h : (n, g) ∈ sub.nodes) : (n + 1, g) ∈ f.nodes :=
  mem_nodes_iff.mpr (.inr ⟨n, rfl, sub, hsub, h⟩)

/-! ## Level by level -/

theorem Licensed.of_mem_children {P : Fulfillment → Prop} {f sub : Fulfillment}
    (h : Licensed P f) (hsub : sub ∈ f.children) : P sub := by
  cases f with
  | prefixed p max sub' c =>
    obtain rfl := List.mem_singleton.mp hsub
    exact h.1
  | threshold k subs conds c => exact h.1 sub hsub
  | _ => exact absurd hsub List.not_mem_nil

theorem Constructible.of_mem_children {f sub : Fulfillment} (hf : Constructible f)
    (hsub : sub ∈ f.children) : Constructible sub :=
  (constructible_iff.mp hf).of_mem_children hsub

/-- Induction from the children of a node to the node, whatever its kind. -/
theorem Constructible.induction_children {motive : Fulfillment → Prop}
    (node : ∀ f, Constructible f → (∀ sub ∈ f.children, motive sub) → motive f)
    {f : Fulfillment} (h : Constructible f) : motive f := by
  refine Constructible.induction (fun f hf ↦ ?_) h
  exact node f hf.constructible fun sub hsub ↦ (hf.of_mem_children hsub).2

/-- Every node is constructible by itself. -/
theorem Constructible.of_mem_nodes {f : Fulfillment} (hf : Constructible f) :
    ∀ {n g}, (n, g) ∈ f.nodes → Constructible g := by
  refine Constructible.induction_children
    (motive := fun f ↦ ∀ {n g}, (n, g) ∈ f.nodes → Constructible g) (fun f hf ih n g hg ↦ ?_) hf
  rcases mem_nodes_iff.mp hg with ⟨-, rfl⟩ | ⟨m, -, sub, hsub, hg⟩
  · exact hf
  · exact ih sub hsub hg

/-! ## Kinds -/

/-- What a condition lists, right below it. -/
theorem Constructible.mem_kinds_iff_of_children {f : Fulfillment} (hf : Constructible f)
    {k : Kind} :
    k ∈ f.condition.kinds ↔ f.Mentions k ∨ ∃ sub ∈ f.children, k ∈ sub.condition.kinds := by
  have hnested : k ∈ f.condition.kinds ↔ k = f.kind ∨ ∃ b ∈ f.nested, k ∈ b.kinds := by
    rcases hf.condition_eq_leaf_or_compound with ⟨hnil, cost, hc⟩ | ⟨hown, cost, hc⟩
    · rw [hc, hnil, Condition.mem_kinds_leaf_iff]
      exact (or_iff_left fun ⟨_, hb, _⟩ ↦ List.not_mem_nil hb).symm
    · rw [hc, Condition.mem_kinds_compound_iff hown]
  rw [hnested, mentions_iff, or_assoc, nested]
  refine or_congr_right ?_
  simp only [List.mem_append, List.mem_map, or_and_right, exists_or, exists_exists_and_eq_and]
  exact or_comm

/-- **What a condition lists, anywhere below it.** -/
theorem Constructible.mem_kinds_condition_iff {f : Fulfillment} (hf : Constructible f)
    {k : Kind} :
    k ∈ f.condition.kinds ↔ ∃ n g, (n, g) ∈ f.nodes ∧ g.Mentions k := by
  refine Constructible.induction_children
    (motive := fun f ↦ k ∈ f.condition.kinds ↔ ∃ n g, (n, g) ∈ f.nodes ∧ g.Mentions k)
    (fun f hf ih ↦ ?_) hf
  rw [hf.mem_kinds_iff_of_children]
  constructor
  · rintro (hk | ⟨sub, hsub, hk⟩)
    · exact ⟨0, f, f.root_mem_nodes, hk⟩
    · obtain ⟨n, g, hg, hk⟩ := (ih sub hsub).mp hk
      exact ⟨n + 1, g, mem_nodes_of_mem_children hsub hg, hk⟩
  · rintro ⟨n, g, hg, hk⟩
    rcases mem_nodes_iff.mp hg with ⟨-, rfl⟩ | ⟨m, -, sub, hsub, hg⟩
    · exact .inl hk
    · exact .inr ⟨sub, hsub, (ih sub hsub).mpr ⟨m, g, hg, hk⟩⟩

/-! ## Costs -/

/-- A threshold node counts as many branches as are fulfilled, so it pays for all of these, and the
overhead comes on top. -/
theorem sum_cost_le_of_ofThreshold {subs : List Fulfillment} {conds : List Condition}
    {c : Condition} (hc : Condition.ofThreshold subs.length (branches subs conds) = .ok c) :
    ((subs.map cost).map UInt64.toNat).sum + 1024 * (subs.length + conds.length)
      ≤ c.cost.toNat := by
  have hcost := Condition.toNat_cost_of_ofThreshold hc
  have hsubperm : (subs.map cost).Subperm ((branches subs conds).map Condition.cost) := by
    rw [branches, List.map_append, List.map_map]
    exact (List.sublist_append_left _ _).subperm
  have hlargest := Cost.sum_le_largest hsubperm (Nat.le_of_eq (List.length_map _))
  have hbranches : (branches subs conds).length = subs.length + conds.length := by
    rw [branches, List.length_append, List.length_map]
  rw [hcost, hbranches]
  exact Nat.add_le_add_right hlargest _

/-- What is right below a node costs less. -/
theorem Constructible.cost_lt_of_children {f : Fulfillment} (hf : Constructible f) :
    (∀ sub ∈ f.children, sub.cost < f.cost) ∧ ∀ c ∈ f.bareConditions, c.cost < f.cost := by
  have hnode := constructible_iff.mp hf
  cases f with
  | prefixed p max sub c =>
    have hcost := Condition.toNat_cost_of_ofPrefix hnode.2
    refine ⟨fun sub' hsub ↦ ?_, fun c hc ↦ absurd hc List.not_mem_nil⟩
    obtain rfl := List.mem_singleton.mp hsub
    have hlt : sub'.condition.cost.toNat < c.cost.toNat := by omega
    exact UInt64.lt_iff_toNat_lt.mpr hlt
  | threshold k subs conds c =>
    obtain ⟨-, -, -, -, hc⟩ := hnode
    have hcost := Condition.toNat_cost_of_ofThreshold hc
    obtain ⟨hzero, hfew, -⟩ := Condition.ofThreshold_eq_ok_iff.mp hc
    have hbranch : ∀ b ∈ branches subs conds, b.cost < c.cost := by
      intro b hb
      have hlargest := Cost.toNat_le_largest (List.mem_map_of_mem (f := Condition.cost) hb) hzero
      exact UInt64.lt_iff_toNat_lt.mpr (by omega)
    refine ⟨fun sub hsub ↦ ?_, fun d hd ↦ ?_⟩
    · exact hbranch _ (List.mem_append_left _ (List.mem_map_of_mem hsub))
    · exact hbranch _ (List.mem_append_right _ hd)
  | _ => exact ⟨fun sub hsub ↦ absurd hsub List.not_mem_nil, fun c hc ↦ absurd hc List.not_mem_nil⟩

/-- No node costs more than the whole. -/
theorem Constructible.cost_le_of_mem_nodes {f : Fulfillment} (hf : Constructible f) :
    ∀ {n g}, (n, g) ∈ f.nodes → g.cost ≤ f.cost := by
  refine Constructible.induction_children
    (motive := fun f ↦ ∀ {n g}, (n, g) ∈ f.nodes → g.cost ≤ f.cost) (fun f hf ih n g hg ↦ ?_) hf
  rcases mem_nodes_iff.mp hg with ⟨-, rfl⟩ | ⟨m, -, sub, hsub, hg⟩
  · exact UInt64.le_refl _
  · have hlt := hf.cost_lt_of_children.1 sub hsub
    exact UInt64.le_of_lt (UInt64.lt_of_le_of_lt (ih sub hsub hg) hlt)

/-- **Whatever stands below a fulfillment costs less.** -/
theorem Constructible.cost_lt {f g : Fulfillment} (hf : Constructible f) {n : Nat}
    (hg : (n, g) ∈ f.nodes) :
    (n ≠ 0 → g.cost < f.cost) ∧ ∀ c ∈ g.bareConditions, c.cost < f.cost := by
  constructor
  · intro hn
    rcases mem_nodes_iff.mp hg with ⟨rfl, -⟩ | ⟨m, -, sub, hsub, hg⟩
    · exact absurd rfl hn
    · have hle := (hf.of_mem_children hsub).cost_le_of_mem_nodes hg
      exact UInt64.lt_of_le_of_lt hle (hf.cost_lt_of_children.1 sub hsub)
  · intro c hc
    have hlt := (hf.of_mem_nodes hg).cost_lt_of_children.2 c hc
    exact UInt64.lt_of_lt_of_le hlt (hf.cost_le_of_mem_nodes hg)

end Hashlock.Fulfillment
