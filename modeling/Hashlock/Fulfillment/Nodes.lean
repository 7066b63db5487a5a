import Hashlock.Fulfillment.Construction

/-!
# Nodes of fulfillments

Views of a fulfillment as a tree: its nodes in preorder, each with its distance from the root, and
what each node commits to.
-/

namespace Hashlock.Fulfillment

mutual

/-- The nodes of a fulfillment in preorder, at a distance from the root. -/
def nodesAt (distance : Nat) : Fulfillment → List (Nat × Fulfillment)
  | f@(prefixed _ _ sub _) => (distance, f) :: nodesAt (distance + 1) sub
  | f@(threshold _ subs _ _) => (distance, f) :: nodesOfAll (distance + 1) subs
  | f@(preimage ..) | f@(rsa ..) | f@(ed25519 ..) => [(distance, f)]

/-- The nodes of fulfillments, one after the other. -/
def nodesOfAll (distance : Nat) : List Fulfillment → List (Nat × Fulfillment)
  | [] => []
  | f :: fs => nodesAt distance f ++ nodesOfAll distance fs

end

/-- The nodes of a fulfillment in preorder, each with its distance from the root. -/
def nodes (f : Fulfillment) : List (Nat × Fulfillment) := nodesAt 0 f

/-- The bytes whose digest is the fingerprint of a fulfillment's condition, from its public data. -/
def contents : Fulfillment → Bytes
  | preimage p _ => p
  | prefixed p max sub _ => Contents.prefixed p max sub.condition
  | threshold k subs subconditions _ => Contents.threshold k (branches subs subconditions)
  | rsa modulus _ _ => Contents.rsa modulus
  | ed25519 key _ _ => Contents.ed25519 key

end Hashlock.Fulfillment
