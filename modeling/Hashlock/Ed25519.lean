import Hashlock.Bytes.Fixed
import Hashlock.Ed25519.Point
import Hashlock.Hash.Sha512

/-!
# Ed25519 signatures

Keys and signatures are byte strings of fixed length; a public key need not be a point of the
curve until a signature is checked with it.

Checking is done on bytes and without the cofactor: a signature holds when its first half is the
encoding of `[s]B - [k]A`. Points of small order are admitted as keys, the scalar `s` must be below
the group order, and `k` hashes the key bytes as they are given.
-/

namespace Hashlock.Ed25519

/-- The order of the base point. -/
def groupOrder : Nat := (1 <<< 252) + 27742317777372353535851937790883648493

/-- Thirty-two bytes that may be a point of the curve. -/
structure PublicKey extends FixedBytes 32
deriving DecidableEq

/-- Sixty-four bytes: an encoded point and a scalar. -/
structure Signature extends FixedBytes 64
deriving DecidableEq

/-- A secret key: thirty-two bytes from which scalar and nonces are derived. -/
structure SecretKey extends FixedBytes 32
deriving DecidableEq

/-- The key with given bytes, if there are 32 of them. -/
def PublicKey.ofBytes? (bs : Bytes) : Option PublicKey := (FixedBytes.ofBytes? bs).map mk

@[simp] theorem PublicKey.ofBytes?_bytes (k : PublicKey) : PublicKey.ofBytes? k.bytes = some k := by
  simp [PublicKey.ofBytes?]

/-- The signature with given bytes, if there are 64 of them. -/
def Signature.ofBytes? (bs : Bytes) : Option Signature := (FixedBytes.ofBytes? bs).map mk

@[simp] theorem Signature.ofBytes?_bytes (s : Signature) : Signature.ofBytes? s.bytes = some s := by
  simp [Signature.ofBytes?]

/-- The secret key with given bytes, if there are 32 of them. -/
def SecretKey.ofBytes? (bs : Bytes) : Option SecretKey := (FixedBytes.ofBytes? bs).map mk

/-- The SHA-512 digest of a byte string as a little-endian number. -/
def hashNumber (bs : Bytes) : Nat := Integer.value (Sha512.digest bs).reverse

/-! ## Signing -/

namespace SecretKey

/-- The secret scalar: the first half of the hashed seed, made a multiple of the cofactor of fixed
length. -/
def scalar (k : SecretKey) : Nat :=
  let n := Integer.value ((Sha512.digest k.bytes).take 32).reverse
  (1 <<< 254) + n % (1 <<< 254) / 8 * 8

/-- What makes nonces unpredictable: the second half of the hashed seed. -/
def nonceKey (k : SecretKey) : Bytes := (Sha512.digest k.bytes).drop 32

/-- The public key. -/
def publicKey (k : SecretKey) : PublicKey where
  bytes := (Point.mul k.scalar Point.base).encode
  length_bytes := Point.length_encode _

/-- The signature of a message. -/
def sign (k : SecretKey) (message : Bytes) : Signature :=
  let nonce := hashNumber (k.nonceKey ++ message) % groupOrder
  let commitment := (Point.mul nonce Point.base).encode
  let challenge := hashNumber (commitment ++ k.publicKey.bytes ++ message)
  let response := (nonce + challenge * k.scalar) % groupOrder
  { bytes := commitment ++ Integer.littleEndian 32 response
    length_bytes := by simp [commitment] }

end SecretKey

/-! ## Checking -/

/-- Whether a signature of a message holds under a key; an error if the key is no point. -/
def PublicKey.verify (key : PublicKey) (message : Bytes) (signature : Signature) :
    Except VerifyError Bool :=
  match Point.decode? key.bytes with
  | none => .error .invalidPublicKey
  | some a =>
    let commitment := signature.bytes.take 32
    let response := Integer.value (signature.bytes.drop 32).reverse
    if groupOrder ≤ response then .ok false
    else
      let challenge := hashNumber (commitment ++ key.bytes ++ message) % groupOrder
      let expected := Point.add (Point.mul response Point.base) (Point.mul challenge a.neg)
      .ok (expected.encode == commitment)

/-! ## Text -/

/-- The abbreviated form of a public key. -/
def PublicKey.describe (k : PublicKey) : String := "Ed25519Pub(" ++ k.shortHex ++ ")"

/-- The abbreviated form of a signature. -/
def Signature.describe (s : Signature) : String := "Ed25519Sig(" ++ s.shortHex ++ "...)"

/-- The text of a secret key, which shows its public key. -/
def SecretKey.describe (k : SecretKey) : String := "Keypair(" ++ k.publicKey.describe ++ ")"

end Hashlock.Ed25519
