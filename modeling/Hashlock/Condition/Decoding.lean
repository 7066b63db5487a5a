import Hashlock.Condition.Basic
import Hashlock.Decoding

/-!
# Decoding conditions

Accepts the encodings of conditions and nothing else. The fields are read in order, each in its
canonical form, and whatever is left over is refused.
-/

namespace Hashlock

/-- The content of a fingerprint field. -/
def Fingerprint.ofField (content : Bytes) : Except DecodeError Fingerprint :=
  match Fingerprint.ofBytes? content with
  | some f => .ok f
  | none => .error (.invalidFingerprintLength content.length)

namespace Condition

open Der Read

/-- Read the fields of a condition. What is left over is refused before the parts are put
together. -/
def readFields (kind : Kind) : Read Condition := do
  let fingerprint ← field (.context 0) Fingerprint.ofField
  let cost ← field (.context 1) Integer.decodeUInt64
  let subtypes ← if kind.isCompound then field (.context 2) KindSet.decode else pure ∅
  finish
  construct (ofParts kind fingerprint cost subtypes)

/-- Read one condition. -/
def read : Read Condition := do
  let (kind, fields) ← typed
  within fields (readFields kind)

/-- Decode a condition. -/
def decode (limits : Limits) (bs : Bytes) : Except DecodeError Condition :=
  run read limits.maxLength bs

end Condition

end Hashlock
