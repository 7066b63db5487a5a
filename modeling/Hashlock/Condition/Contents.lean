import Hashlock.Condition.Encoding
import Hashlock.Ed25519

/-!
# Fingerprint contents

What the fingerprint of each kind is the digest of. A preimage condition commits to the preimage
itself; the others commit to a sequence of fields. Compound conditions commit to the encodings of
the conditions they embed, and a threshold condition does so in canonical order, so that the order
in which branches are listed does not count.
-/

namespace Hashlock.Contents

/-- What a prefix condition commits to: the prefix, the length of the longest message, and the
nested condition. -/
def prefixed (prefixBytes : Bytes) (maxMessageLength : UInt64) (nested : Condition) : Bytes :=
  Der.encodeTlv .sequence
    (Der.encodeTlv (.context 0) prefixBytes
      ++ Der.encodeTlv (.context 1) (Integer.encodeUInt64 maxMessageLength)
      ++ Der.encodeTlv (.contextConstructed 2) nested.encode)

/-- What a threshold condition commits to: the threshold, and the branches in canonical order. -/
def threshold (threshold : Nat) (branches : List Condition) : Bytes :=
  Der.encodeTlv .sequence
    (Der.encodeTlv (.context 0) (Integer.encode (Integer.ofNat threshold))
      ++ Der.encodeTlv (.contextConstructed 1) (Condition.sortedEncodings branches).flatten)

/-- What an RSA condition commits to: the bytes of the modulus. -/
def rsa (modulus : Bytes) : Bytes :=
  Der.encodeTlv .sequence (Der.encodeTlv (.context 0) modulus)

/-- What an Ed25519 condition commits to: the bytes of the public key. -/
def ed25519 (key : Ed25519.PublicKey) : Bytes :=
  Der.encodeTlv .sequence (Der.encodeTlv (.context 0) key.bytes)

end Hashlock.Contents
