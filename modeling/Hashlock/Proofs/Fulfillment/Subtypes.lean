import Hashlock.Proofs.Fulfillment.Nodes
import Hashlock.Proofs.Kind.Set

/-!
# The subtypes of a tree

A condition lists its subtypes without its own kind, and derives them from conditions that have left
out theirs. What is on the list is said here without any recursion: the kinds of all nodes below the
root, and of each bare condition, wherever in the tree it is, its kind and what it declares; the
kind of the root is taken out at last (`Constructible.subtypes_condition`).

## Why nothing is lost

A node that leaves out its own kind is of that kind, so the node above finds it there and lists it.
For this reason it is not the subtypes that are followed up the tree but the subtypes together with
the kind, which is `Constructible.mem_kinds_condition_iff`. Only the root has no node above it, and
there the one kind that is left out is the one that the statement takes out as well.
-/

namespace Hashlock

/-- A condition lists all its kinds but its own. -/
theorem Condition.subtypes_eq_erase_kinds (c : Condition) : c.subtypes = c.kinds.erase c.kind := by
  refine KindSet.ext_mem fun k ↦ ?_
  rw [KindSet.mem_erase, mem_kinds_iff]
  constructor
  · intro hk
    refine ⟨.inr hk, ?_⟩
    rintro rfl
    exact c.kind_not_mem_subtypes hk
  · rintro ⟨hk, hne⟩
    exact hk.resolve_left hne

namespace Fulfillment

/-! ## What stands below the root -/

/-- The nodes below the root. -/
def descendants (f : Fulfillment) : List Fulfillment :=
  (f.nodes.filter fun n ↦ n.1 ≠ 0).map Prod.snd

/-- The bare conditions of all nodes, the root included. -/
def carriedConditions (f : Fulfillment) : List Condition :=
  f.nodes.flatMap fun n ↦ n.2.bareConditions

/-- The kinds of the nodes below the root, and those that bare conditions have or declare. -/
def kindsBelow (f : Fulfillment) : KindSet :=
  KindSet.ofList (f.descendants.map kind) ∪ KindSet.unions (f.carriedConditions.map Condition.kinds)

variable {f g : Fulfillment} {k : Kind}

theorem mem_descendants_iff : g ∈ f.descendants ↔ ∃ n, n ≠ 0 ∧ (n, g) ∈ f.nodes := by
  simp [descendants, and_comm]

theorem mem_carriedConditions_iff {c : Condition} :
    c ∈ f.carriedConditions ↔ ∃ n g, (n, g) ∈ f.nodes ∧ c ∈ g.bareConditions := by
  simp [carriedConditions]

theorem mem_kindsBelow_iff :
    k ∈ f.kindsBelow ↔
      (∃ g ∈ f.descendants, k = g.kind) ∨ ∃ c ∈ f.carriedConditions, k ∈ c.kinds := by
  simp [kindsBelow, eq_comm]

/-- The root is the only node that the nodes below it do not account for. -/
theorem exists_mentions_iff :
    (∃ n g, (n, g) ∈ f.nodes ∧ g.Mentions k) ↔ k = f.kind ∨ k ∈ f.kindsBelow := by
  rw [mem_kindsBelow_iff]
  constructor
  · rintro ⟨n, g, hg, hk⟩
    rcases mentions_iff.mp hk with rfl | ⟨c, hc, hk⟩
    · rcases mem_nodes_iff.mp hg with ⟨-, rfl⟩ | ⟨m, rfl, -⟩
      · exact .inl rfl
      · exact .inr (.inl ⟨g, mem_descendants_iff.mpr ⟨m + 1, Nat.succ_ne_zero m, hg⟩, rfl⟩)
    · exact .inr (.inr ⟨c, mem_carriedConditions_iff.mpr ⟨n, g, hg, hc⟩, hk⟩)
  · rintro (rfl | ⟨g, hg, rfl⟩ | ⟨c, hc, hk⟩)
    · exact ⟨0, f, f.root_mem_nodes, .inl rfl⟩
    · obtain ⟨n, -, hg⟩ := mem_descendants_iff.mp hg
      exact ⟨n, g, hg, .inl rfl⟩
    · obtain ⟨n, g, hg, hc⟩ := mem_carriedConditions_iff.mp hc
      exact ⟨n, g, hg, mentions_iff.mpr (.inr ⟨c, hc, hk⟩)⟩

/-! ## The kinds of the whole tree -/

/-- The kind and the subtypes of a condition are the kinds of the whole tree. -/
theorem Constructible.kinds_condition (hf : Constructible f) :
    f.condition.kinds = f.kindsBelow.insert f.kind := by
  refine KindSet.ext_mem fun k ↦ ?_
  rw [hf.mem_kinds_condition_iff, exists_mentions_iff, KindSet.mem_insert, or_comm]

/-- No kind is lost on the way from a node to the root. -/
theorem Constructible.mem_kinds_of_mem_nodes (hf : Constructible f) :
    ∀ {n g}, (n, g) ∈ f.nodes → k ∈ g.condition.kinds → k ∈ f.condition.kinds := by
  refine Constructible.induction_children
    (motive := fun f ↦ ∀ {n g}, (n, g) ∈ f.nodes → k ∈ g.condition.kinds → k ∈ f.condition.kinds)
    (fun f hf ih n g hg hk ↦ ?_) hf
  rcases mem_nodes_iff.mp hg with ⟨-, rfl⟩ | ⟨m, -, sub, hsub, hg⟩
  · exact hk
  · exact hf.mem_kinds_iff_of_children.mpr (.inr ⟨sub, hsub, ih sub hsub hg hk⟩)

/-! ## A sample -/

/-- A prefix around a threshold node around a prefix; the bare condition at the threshold node only
declares that there is a key below it. -/
def alternating : Except ConstructionError Fulfillment := do
  let inner ← ofPrefix [] 0 (ofPreimage [])
  let bare ← Condition.ofParts .prefixed (Fingerprint.digest []) 0 (KindSet.singleton .ed25519)
  let node ← ofThreshold 1 [inner] [bare]
  ofPrefix [] 0 node

theorem exists_alternating : ∃ f, alternating = .ok f ∧ Constructible f := by
  obtain ⟨f, h⟩ := Result.exists_eq_ok_of_isOk (by decide +kernel : alternating.isOk = true)
  obtain ⟨inner, hinner, hrest⟩ := Result.bind_eq_ok_iff.mp h
  obtain ⟨bare, -, hrest⟩ := Result.bind_eq_ok_iff.mp hrest
  obtain ⟨node, hnode, hf⟩ := Result.bind_eq_ok_iff.mp hrest
  refine ⟨f, h, .ofPrefix (.ofThreshold (fun g hg ↦ ?_) hnode) hf⟩
  obtain rfl := List.mem_singleton.mp hg
  exact .ofPrefix (.ofPreimage _) hinner

/-! ## Main result -/

/-- **A condition lists what is below it**, all of it and nothing else. What some node below has
left out, because it is of that kind, is listed as well, unless the root is of the same kind. -/
theorem Constructible.subtypes_condition (hf : Constructible f) :
    f.condition.subtypes = f.kindsBelow.erase f.kind
      ∧ (f.kind.isCompound = false → f.condition.subtypes = ∅)
      ∧ ∀ n g, (n, g) ∈ f.nodes → ∀ k ∈ g.condition.kinds, k ≠ f.kind →
          k ∈ f.condition.subtypes := by
  have hsubtypes : f.condition.subtypes = f.kindsBelow.erase f.kind := by
    rw [Condition.subtypes_eq_erase_kinds, hf.kinds_condition, hf.kind_condition]
    exact KindSet.erase_insert_self _ _
  refine ⟨hsubtypes, fun hsimple ↦ ?_, fun n g hg k hk hne ↦ ?_⟩
  · apply f.condition.subtypes_of_simple
    rwa [hf.kind_condition]
  · rw [Condition.subtypes_eq_erase_kinds, KindSet.mem_erase, hf.kind_condition]
    exact ⟨hf.mem_kinds_of_mem_nodes hg hk, hne⟩

/-- The prefix inside leaves out its kind, the threshold node above lists it, and the prefix outside
leaves it out again. -/
theorem subtypes_condition_alternating :
    ∃ f node, alternating = .ok f ∧ (1, node) ∈ f.nodes ∧ f.Constructible ∧ node.Constructible
      ∧ node.condition.subtypes = KindSet.ofList [.preimage, .prefixed, .ed25519]
      ∧ f.condition.subtypes = KindSet.ofList [.preimage, .threshold, .ed25519] := by
  obtain ⟨f, h, hf⟩ := exists_alternating
  have hnode : alternating.map (fun f ↦ f.children.map fun g ↦ (g.kindsBelow.erase g.kind))
      = .ok [KindSet.ofList [.preimage, .prefixed, .ed25519]] := by decide +kernel
  have hroot : alternating.map (fun f ↦ f.kindsBelow.erase f.kind)
      = .ok (KindSet.ofList [.preimage, .threshold, .ed25519]) := by decide +kernel
  rw [h] at hnode hroot
  obtain ⟨node, hchildren, hnode⟩ := List.map_eq_singleton_iff.mp (Except.ok.inj hnode)
  have hmem : node ∈ f.children := hchildren ▸ List.mem_singleton.mpr rfl
  have hconstructible := hf.of_mem_children hmem
  refine ⟨f, node, h, mem_nodes_of_mem_children hmem node.root_mem_nodes, hf, hconstructible,
    ?_, ?_⟩
  · exact (Constructible.subtypes_condition hconstructible).1.trans hnode
  · exact (Constructible.subtypes_condition hf).1.trans (Except.ok.inj hroot)

end Fulfillment

end Hashlock
