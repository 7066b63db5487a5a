import Hashlock.Condition.Decoding
import Hashlock.Fulfillment.Construction

/-!
# Decoding fulfillments

Accepts the encodings of fulfillments and nothing else; nothing is repaired. The conditions of the
nodes are derived anew by the same constructors that callers use, so a value that cannot be
constructed cannot be decoded.

Reading recurses on the number of compound nodes that may still be nested, which the limits give;
a compound node where none may be is refused before its fields are looked at. The members of a set
are read one after the other until the set is used up.
-/

namespace Hashlock.Fulfillment

open Der Read

/-- Read the fields of a preimage fulfillment. -/
def readPreimage : Read Fulfillment := do
  return ofPreimage (← expect (.context 0))

/-- Read the fields of a prefix fulfillment, with `sub` for the nested one. -/
def readPrefixed (sub : Read Fulfillment) : Read Fulfillment := do
  let prefixBytes ← expect (.context 0)
  let maxMessageLength ← field (.context 1) Integer.decodeUInt64
  let f ← within (← expect (.contextConstructed 2)) sub
  construct (ofPrefix prefixBytes maxMessageLength f)

/-- Read the fields of a threshold fulfillment, with `sub` for each fulfilled branch. -/
def readThreshold (sub : Read Fulfillment) : Read Fulfillment := do
  let subs ← within (← expect (.contextConstructed 0)) (set sub)
  let subconditions ← within (← expect (.contextConstructed 1)) (set Condition.read)
  construct (ofThreshold subs.length subs subconditions)

/-- The content of the modulus field, which has no leading zero. -/
def modulusField (content : Bytes) : Except DecodeError Bytes :=
  if content.head? = some 0 then .error .nonCanonicalInteger else .ok content

/-- Read the fields of an RSA fulfillment. -/
def readRsa : Read Fulfillment := do
  let modulus ← field (.context 0) modulusField
  let signature ← expect (.context 1)
  construct (ofRsa modulus signature)

/-- Read the fields of an Ed25519 fulfillment. -/
def readEd25519 : Read Fulfillment := do
  let key ← expect (.context 0)
  let signature ← expect (.context 1)
  construct (ofEd25519Bytes key signature)

/-- Read the fields of a kind, with `sub?` for the fulfillments nested in a compound one, or none
if nothing may be nested here. -/
def readFields (maxDepth : Nat) (sub? : Option (Read Fulfillment)) : Kind → Read Fulfillment
  | .preimage => readPreimage
  | .rsa => readRsa
  | .ed25519 => readEd25519
  | .prefixed =>
    match sub? with
    | some sub => readPrefixed sub
    | none => throw (.depthExceeded maxDepth)
  | .threshold =>
    match sub? with
    | some sub => readThreshold sub
    | none => throw (.depthExceeded maxDepth)

/-- Read one node, with `sub?` for the fulfillments nested in it. -/
def readNode (maxDepth : Nat) (sub? : Option (Read Fulfillment)) : Read Fulfillment := do
  let (kind, fields) ← typed
  within fields (readFields maxDepth sub? kind)

/-- Read one fulfillment in which at most `levels` compound nodes are nested in one another.
`maxDepth` is the limit that an error reports. -/
def read (maxDepth : Nat) : (levels : Nat) → Read Fulfillment
  | 0 => readNode maxDepth none
  | levels + 1 => readNode maxDepth (some (read maxDepth levels))

/-- Decode a fulfillment. -/
def decode (limits : Limits) (bs : Bytes) : Except DecodeError Fulfillment :=
  run (read limits.maxDepth limits.maxDepth) limits.maxLength bs

end Hashlock.Fulfillment
