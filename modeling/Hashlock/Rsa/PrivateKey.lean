import Hashlock.Der.Reader
import Hashlock.Rsa
import Hashlock.Text.Pem

/-!
# RSA private keys

A private key with two primes, read from the sequence of integers `version`, modulus, public
exponent, private exponent, the two primes, the two reduced exponents and the coefficient. The
last three can be derived and are not looked at. A key is accepted when its parts fit together.
-/

namespace Hashlock.Rsa

/-- A private key. -/
structure PrivateKey where
  /-- The product of the primes. -/
  modulus : Nat
  /-- The exponent of signing. -/
  privateExponent : Nat
deriving DecidableEq

namespace PrivateKey

/-- Whether the parts of a key fit together: the modulus is odd and the product of the primes, the
public exponent is odd, at least two, below the modulus and of at most 33 bits, and the exponents
undo each other modulo each prime. The size of the modulus is bounded for public keys only. -/
def consistent (n e d p q : Nat) : Bool :=
  e < n && n % 2 == 1 && e % 2 == 1 && 2 ≤ e && e < 1 <<< 33
    && p * q == n && d * e % (p - 1) == 1 && d * e % (q - 1) == 1

/-- Take a non-negative integer. -/
def readInteger : Der.Read Nat := do
  let content ← Der.Read.expect .integer
  return Integer.value (← Der.Read.ofExcept (Integer.decode content))

/-- The integers of a key in order. -/
def readIntegers : Der.Read (List Nat) := do
  let fields ← Der.Read.expect .sequence
  Der.Read.within fields ((List.range 9).mapM fun _ ↦ readInteger)

/-- The key in a sequence of integers. -/
def decode? (encoded : Bytes) : Option PrivateKey :=
  match Der.Read.run readIntegers Der.Reader.defaultMaxLength encoded with
  | .ok [version, n, e, d, p, q, _, _, _] =>
    if version = 0 ∧ consistent n e d p q then some ⟨n, d⟩ else none
  | _ => none

/-- The key in PEM text. -/
def ofPem? (text : String) : Option PrivateKey := do
  decode? (← Pem.decode? "RSA PRIVATE KEY" text)

/-- The number of bytes of the modulus. -/
def size (k : PrivateKey) : Nat := byteLength k.modulus

/-- The bytes of the modulus, without leading zeros. -/
def publicModulus (k : PrivateKey) : Bytes := Integer.ofNat k.modulus

/-- The signature of a message under a salt of 32 bytes, if the key is long enough for one. -/
def sign? (k : PrivateKey) (salt message : Bytes) : Option Bytes := do
  let block ← Pss.encode? (bitLength k.modulus - 1) salt message
  return Integer.bigEndian k.size (powerMod (Integer.value block) k.privateExponent k.modulus)

/-- The text of a private key, which shows its size only. -/
def describe (k : PrivateKey) : String := "RsaKeypair(" ++ Nat.repr (8 * k.size) ++ " bits)"

end PrivateKey

end Hashlock.Rsa
