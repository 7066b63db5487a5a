import Hashlock.Fulfillment.Encoding

/-!
# Constructing fulfillments

Each constructor checks the parts it is given and derives the condition from the data of the node
and the conditions of its children.

## Threshold nodes

The encoding of a threshold node tells the threshold by the number of fulfilled branches, so there
are exactly as many of them; all other branches are bare conditions. Both lists are kept in the
canonical order of their encodings.
-/

namespace Hashlock.Fulfillment

/-- Reveal a preimage. -/
def ofPreimage (preimage : Bytes) : Fulfillment :=
  .preimage preimage (Condition.ofPreimage preimage)

/-- Put a prefix and a bound for the length of messages around a fulfillment. -/
def ofPrefix (prefixBytes : Bytes) (maxMessageLength : UInt64) (sub : Fulfillment) :
    Except ConstructionError Fulfillment := do
  let condition ← Condition.ofPrefix prefixBytes maxMessageLength sub.condition
  return .prefixed prefixBytes maxMessageLength sub condition

/-- The branches of a threshold node: the conditions of the fulfilled ones, then the others. -/
def branches (subs : List Fulfillment) (subconditions : List Condition) : List Condition :=
  subs.map condition ++ subconditions

/-- Gather exactly `threshold` fulfilled branches and the conditions of the others. -/
def ofThreshold (threshold : Nat) (subs : List Fulfillment) (subconditions : List Condition) :
    Except ConstructionError Fulfillment :=
  if threshold = 0 then .error .zeroThreshold
  else if subs.length < threshold then .error (.thresholdTooLarge threshold subs.length)
  else if threshold < subs.length then .error (.surplusSubfulfillments threshold subs.length)
  else do
    let subs := Bytes.sortOn encode subs
    let subconditions := Condition.sort subconditions
    let condition ← Condition.ofThreshold threshold (branches subs subconditions)
    return .threshold threshold subs subconditions condition

/-- Pair an RSA modulus with a signature of the same length, where leading zero bytes of the
modulus do not count. The length of the modulus is checked first. -/
def ofRsa (modulus signature : Bytes) : Except ConstructionError Fulfillment := do
  let modulus := Integer.magnitude modulus
  let condition ← Condition.ofRsaModulus modulus
  if signature.length ≠ modulus.length then
    throw (.invalidSignatureLength .rsa modulus.length signature.length)
  else return .rsa modulus signature condition

/-- Pair an Ed25519 key with a signature. -/
def ofEd25519 (key : Ed25519.PublicKey) (signature : Ed25519.Signature) : Fulfillment :=
  .ed25519 key signature (Condition.ofEd25519Key key)

/-- Pair the bytes of an Ed25519 key with those of a signature. The length of the key is checked
first. -/
def ofEd25519Bytes (key signature : Bytes) : Except ConstructionError Fulfillment :=
  match Ed25519.PublicKey.ofBytes? key, Ed25519.Signature.ofBytes? signature with
  | none, _ => .error (.invalidPublicKeyLength key.length)
  | some _, none => .error (.invalidSignatureLength .ed25519 64 signature.length)
  | some k, some s => .ok (ofEd25519 k s)

end Hashlock.Fulfillment
