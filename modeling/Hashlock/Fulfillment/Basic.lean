import Hashlock.Condition.Derivation

/-!
# Fulfillments

A fulfillment is the data that discharges a condition: a tree whose leaves reveal a preimage or
carry a signature, and whose inner nodes put a prefix in front of the message or gather a number of
fulfilled branches. Each node holds the condition that it discharges; the smart constructors
derive it once, when the node is made.
-/

namespace Hashlock

/-- A fulfillment. -/
inductive Fulfillment where
  /-- A revealed preimage. -/
  | preimage (preimage : Bytes) (condition : Condition)
  /-- A fulfillment of messages of bounded length behind a prefix. -/
  | prefixed (prefixBytes : Bytes) (maxMessageLength : UInt64) (sub : Fulfillment)
      (condition : Condition)
  /-- Fulfilled branches, and conditions of the branches that are not fulfilled. -/
  | threshold (threshold : Nat) (subs : List Fulfillment) (subconditions : List Condition)
      (condition : Condition)
  /-- A signature under an RSA modulus. -/
  | rsa (modulus signature : Bytes) (condition : Condition)
  /-- A signature under an Ed25519 key. -/
  | ed25519 (key : Ed25519.PublicKey) (signature : Ed25519.Signature) (condition : Condition)

namespace Fulfillment

/-- The condition that a fulfillment discharges. -/
def condition : Fulfillment → Condition
  | preimage _ c | prefixed _ _ _ c | threshold _ _ _ c | rsa _ _ c | ed25519 _ _ c => c

/-- The kind of a fulfillment. -/
def kind : Fulfillment → Kind
  | preimage .. => .preimage
  | prefixed .. => .prefixed
  | threshold .. => .threshold
  | rsa .. => .rsa
  | ed25519 .. => .ed25519

/-- The cost of the condition. -/
def cost (f : Fulfillment) : UInt64 := f.condition.cost

/-! ## Equality -/

mutual

/-- Whether two fulfillments agree in every field. -/
def beq : Fulfillment → Fulfillment → Bool
  | preimage p c, preimage p' c' => p == p' && c == c'
  | prefixed p m s c, prefixed p' m' s' c' => p == p' && m == m' && beq s s' && c == c'
  | threshold k ss cs c, threshold k' ss' cs' c' => k == k' && beqAll ss ss' && cs == cs' && c == c'
  | rsa n s c, rsa n' s' c' => n == n' && s == s' && c == c'
  | ed25519 k s c, ed25519 k' s' c' => k == k' && s == s' && c == c'
  | _, _ => false

/-- Whether two lists of fulfillments agree member by member. -/
def beqAll : List Fulfillment → List Fulfillment → Bool
  | [], [] => true
  | f :: fs, g :: gs => beq f g && beqAll fs gs
  | _, _ => false

end

mutual

private theorem beq_eq_true : (f g : Fulfillment) → (f.beq g = true ↔ f = g)
  | preimage .., g => by cases g <;> simp [beq]
  | prefixed _ _ s _, g => by cases g <;> simp [beq, beq_eq_true s, and_assoc]
  | threshold _ ss _ _, g => by cases g <;> simp [beq, beqAll_eq_true ss, and_assoc]
  | rsa .., g => by cases g <;> simp [beq, and_assoc]
  | ed25519 .., g => by cases g <;> simp [beq, and_assoc]

private theorem beqAll_eq_true : (fs gs : List Fulfillment) → (beqAll fs gs = true ↔ fs = gs)
  | [], gs => by cases gs <;> simp [beqAll]
  | f :: fs, gs => by cases gs <;> simp [beqAll, beq_eq_true f, beqAll_eq_true fs]

end

instance : DecidableEq Fulfillment := fun f g ↦ decidable_of_iff _ (beq_eq_true f g)

end Fulfillment

end Hashlock
