import Hashlock.Fulfillment.Basic
import Hashlock.Rsa

/-!
# Checking fulfillments

A fulfillment is checked against a condition and a message. `false` says that it is well formed and
does not satisfy the condition; errors are for messages that are too long and for keys that cannot
be used. Each child of a node is checked against the child's own condition, so that the condition
given from outside is compared at the root only.

A prefix node looks at the length of the message before anything else. An error in any branch of a
threshold node that is reached is the result of the node, whatever the other branches say.
-/

namespace Hashlock.Fulfillment

mutual

/-- Check a fulfillment against a condition and a message. -/
def verify : Fulfillment → Condition → Bytes → Except VerifyError Bool
  | preimage _ own, c, _ => .ok (own == c)
  | prefixed p max sub own, c, message =>
    if max.toNat < message.length then .error (.messageTooLong message.length max)
    else if own ≠ c then .ok false
    else verify sub sub.condition (p ++ message)
  | threshold k subs _ own, c, message =>
    if own ≠ c then .ok false
    else do return decide (k ≤ (← countSatisfied subs message))
  | rsa modulus signature own, c, message =>
    if own ≠ c then .ok false else Rsa.verify modulus message signature
  | ed25519 key signature own, c, message =>
    if own ≠ c then .ok false else key.verify message signature

/-- The number of fulfillments that satisfy their own conditions with a message. -/
def countSatisfied : List Fulfillment → Bytes → Except VerifyError Nat
  | [], _ => .ok 0
  | f :: fs, message => do
    let satisfied ← verify f f.condition message
    let others ← countSatisfied fs message
    return others + satisfied.toNat

end

end Hashlock.Fulfillment
