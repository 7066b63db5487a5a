import Hashlock.Der.Reader
import Hashlock.Kind.Tag

/-!
# Decoding untrusted bytes

What the decoders of conditions and of fulfillments share: the limits they work under, the outer
tag that gives the kind, and constructors whose errors become decoding errors.
-/

namespace Hashlock

/-- Bounds for decoding. -/
structure Limits where
  /-- The largest length a value may declare. -/
  maxLength : UInt64 := Der.Reader.defaultMaxLength
  /-- The largest number of compound fulfillments that are nested in one another. -/
  maxDepth : Nat := 16
deriving DecidableEq

namespace Der.Read

/-- Take a value whose tag gives a kind. -/
def typed : Read (Kind × Bytes) := do
  let (tag, value) ← tlv
  let kind ← ofExcept (Kind.ofTag tag)
  return (kind, value)

/-- Let the construction of a value fail where the reader stands. -/
def construct : Except ConstructionError α → Read α
  | .ok a => return a
  | .error e => throw (.construction e)

end Der.Read

end Hashlock
