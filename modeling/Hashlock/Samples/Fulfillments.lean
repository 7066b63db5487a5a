import Hashlock.Fulfillment.Signing
import Hashlock.Samples.Keys

/-!
# Sample fulfillments

The fulfillments that the published vectors are made from.
-/

namespace Hashlock.Samples

/-- A preimage. -/
def roads : Bytes := Bytes.ofText "Roads? Where we're going, we don't need roads."

/-- A signature under the key whose seed repeats one byte. -/
def ed25519 (seedByte : UInt8) (message : Bytes) : Fulfillment :=
  .signEd25519 (ed25519Key seedByte) message

/-- The prefix `Ying ` before a signature of `Ying Yang`; it verifies for the message `Yang`. -/
def yingYang : Except ConstructionError Fulfillment :=
  Fulfillment.ofPrefix (Bytes.ofText "Ying ") 100 (ed25519 0x07 (Bytes.ofText "Ying Yang"))

/-- The condition of a signature under an RSA key. -/
def rsaCondition (key : Rsa.PrivateKey) : Except ConstructionError Condition :=
  Condition.ofRsaModulus key.publicModulus

/-- Two branches of three: `roads` and `yingYang` are fulfilled, a signature under an RSA key is
not. It verifies for the message `Yang`. -/
def twoOfThree (key : Rsa.PrivateKey) : Except ConstructionError Fulfillment := do
  let unfulfilled ← rsaCondition key
  Fulfillment.ofThreshold 2 [.ofPreimage roads, ← yingYang] [unfulfilled]

/-! ## Parts of threshold fulfillments -/

/-- What a threshold fulfillment is made of. -/
structure ThresholdParts where
  /-- The number of branches to fulfil. -/
  threshold : Nat
  /-- The fulfilled branches. -/
  subs : List Fulfillment
  /-- The conditions of the other branches. -/
  subconditions : List Condition

/-- The fulfillment made of the parts. -/
def ThresholdParts.build (p : ThresholdParts) : Except ConstructionError Fulfillment :=
  Fulfillment.ofThreshold p.threshold p.subs p.subconditions

/-- The same branches in the opposite order. -/
def ThresholdParts.reversed (p : ThresholdParts) : ThresholdParts where
  threshold := p.threshold
  subs := p.subs.reverse
  subconditions := p.subconditions.reverse

end Hashlock.Samples
