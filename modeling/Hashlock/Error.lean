import Hashlock.Bytes.Hex
import Hashlock.Der.Tag
import Hashlock.Kind

/-!
# Causes of failure

Three families of failure, each a closed type with one text for every cause:

* `DecodeError`: bytes that are not the canonical encoding of anything;
* `ConstructionError`: parts that do not make up a condition or a fulfillment;
* `VerifyError`: a message or a key that cannot be checked at all.

A fulfillment that merely does not satisfy a condition is no failure: verification then answers
`false`. Lengths and counts are natural numbers, limits on lengths and costs are 64-bit words.
-/

namespace Hashlock

/-! ## Construction -/

/-- The signature schemes whose signatures have a fixed length. -/
inductive SignatureScheme where
  | rsa
  | ed25519
deriving DecidableEq, Repr

/-- The name of a signature scheme in error texts. -/
def SignatureScheme.name : SignatureScheme → String
  | .rsa => "rsa"
  | .ed25519 => "ed25519"

/-- Why parts do not make up a condition or a fulfillment. -/
inductive ConstructionError where
  /-- An Ed25519 public key of another length than 32 bytes. -/
  | invalidPublicKeyLength (actual : Nat)
  /-- A signature of another length than its scheme or key asks for. -/
  | invalidSignatureLength (scheme : SignatureScheme) (expected actual : Nat)
  /-- An RSA modulus that is too short or too long. -/
  | invalidModulusLength (actual : Nat)
  /-- A threshold of zero. -/
  | zeroThreshold
  /-- A threshold above the number of branches that could meet it. -/
  | thresholdTooLarge (threshold available : Nat)
  /-- More fulfilled branches than the threshold. -/
  | surplusSubfulfillments (threshold supplied : Nat)
  /-- Subtypes on a condition that is not compound. -/
  | unexpectedSubtypes (kind : Kind)
  /-- A condition that lists its own kind among its subtypes. -/
  | ownKindInSubtypes (kind : Kind)
  /-- A cost that does not fit in 64 bits. -/
  | costOverflow
deriving DecidableEq, Repr

/-- The text of a construction error. -/
def ConstructionError.message : ConstructionError → String
  | .invalidPublicKeyLength actual =>
    "ed25519 public key must be 32 bytes, got " ++ Nat.repr actual
  | .invalidSignatureLength scheme expected actual =>
    scheme.name ++ " signature must be " ++ Nat.repr expected ++ " bytes, got " ++ Nat.repr actual
  | .invalidModulusLength actual =>
    "rsa modulus must be between 128 and 512 bytes, got " ++ Nat.repr actual
  | .zeroThreshold => "threshold must be at least 1"
  | .thresholdTooLarge threshold available =>
    "threshold " ++ Nat.repr threshold ++ " exceeds the " ++ Nat.repr available
      ++ " available branches"
  | .surplusSubfulfillments threshold supplied =>
    "threshold " ++ Nat.repr threshold ++ " takes exactly " ++ Nat.repr threshold
      ++ " subfulfillments, got " ++ Nat.repr supplied
  | .unexpectedSubtypes kind =>
    kind.name ++ " is not a compound condition and cannot carry subtypes"
  | .ownKindInSubtypes kind =>
    kind.name ++ " condition lists its own type among its subtypes"
  | .costOverflow => "cost overflows 64 bits"

/-! ## Decoding -/

/-- Why bytes are not a canonical encoding. -/
inductive DecodeError where
  /-- The input ends inside a tag or a length. -/
  | unexpectedEof
  /-- A tag of more than one byte, or one that starts neither a condition nor a fulfillment. -/
  | unsupportedTag (tag : Der.Tag)
  /-- A complete value under another tag than its place asks for. -/
  | unexpectedTag (expected actual : Der.Tag)
  /-- A length that is to be found out from the content. -/
  | indefiniteLength
  /-- A length written with more bytes than needed. -/
  | nonMinimalLength
  /-- A length above the ceiling of the reader. -/
  | lengthTooLarge (declared : Nat) (max : UInt64)
  /-- A length above the number of bytes that are left. -/
  | lengthExceedsInput (declared remaining : Nat)
  /-- An integer that is negative or written with more bytes than needed. -/
  | nonCanonicalInteger
  /-- A canonical integer of 2^64 or more where a word is wanted. -/
  | integerOverflow
  /-- A bit string that is not in the one form its members have. -/
  | nonCanonicalBitString
  /-- A member of a set that sorts before the one in front of it. -/
  | nonCanonicalSetOrder
  /-- A fingerprint of another length than 32 bytes. -/
  | invalidFingerprintLength (actual : Nat)
  /-- A number that belongs to no kind of condition. -/
  | unknownKind (id : UInt8)
  /-- Bytes left over after a complete value. -/
  | trailingBytes (count : Nat)
  /-- More nested compound fulfillments than allowed. -/
  | depthExceeded (maxDepth : Nat)
  /-- Well-formed fields that do not make up a value. -/
  | construction (cause : ConstructionError)
deriving DecidableEq, Repr

/-- The text of a decoding error. -/
def DecodeError.message : DecodeError → String
  | .unexpectedEof => "unexpected end of input"
  | .unsupportedTag tag => "unsupported tag 0x" ++ Hex.byte tag.byte
  | .unexpectedTag expected actual =>
    "unexpected tag: expected 0x" ++ Hex.byte expected.byte ++ ", got 0x" ++ Hex.byte actual.byte
  | .indefiniteLength => "indefinite length encoding is not allowed"
  | .nonMinimalLength => "length is not minimally encoded"
  | .lengthTooLarge declared max =>
    "declared length [" ++ Nat.repr declared ++ "] is larger than allowed ["
      ++ Nat.repr max.toNat ++ "]"
  | .lengthExceedsInput declared remaining =>
    "declared length [" ++ Nat.repr declared ++ "] exceeds remaining input ["
      ++ Nat.repr remaining ++ "]"
  | .nonCanonicalInteger => "integer is not canonically encoded"
  | .integerOverflow => "integer does not fit in 64 bits"
  | .nonCanonicalBitString => "bit string is not canonically encoded"
  | .nonCanonicalSetOrder => "set members are not in canonical order"
  | .invalidFingerprintLength actual =>
    "invalid fingerprint length: expected 32, got " ++ Nat.repr actual
  | .unknownKind id => "unknown condition type: " ++ Nat.repr id.toNat
  | .trailingBytes count => Nat.repr count ++ " trailing bytes after value"
  | .depthExceeded maxDepth => "nesting depth exceeds maximum of " ++ Nat.repr maxDepth
  | .construction cause => "invalid structure: " ++ cause.message

/-! ## Verification -/

/-- Why a modulus is no RSA public key. -/
inductive ModulusError where
  /-- A modulus of more than 4096 bits. -/
  | tooLarge
  /-- A modulus that is even or not above the public exponent. -/
  | invalid
deriving DecidableEq, Repr

/-- The text of a modulus error. -/
def ModulusError.message : ModulusError → String
  | .tooLarge => "modulus too large"
  | .invalid => "invalid modulus"

/-- Why a fulfillment cannot be checked against a message. -/
inductive VerifyError where
  /-- A message longer than a prefix fulfillment accepts. -/
  | messageTooLong (length : Nat) (max : UInt64)
  /-- Bytes that are no point of the curve. -/
  | invalidPublicKey
  /-- A modulus that is no RSA public key. -/
  | invalidRsaKey (cause : ModulusError)
deriving DecidableEq, Repr

/-- The text of a verification error. -/
def VerifyError.message : VerifyError → String
  | .messageTooLong length max =>
    "message length (" ++ Nat.repr length ++ ") exceeds maximum message length ("
      ++ Nat.repr max.toNat ++ ")"
  | .invalidPublicKey => "invalid ed25519 public key"
  | .invalidRsaKey cause => "invalid rsa public key: " ++ cause.message

end Hashlock
