import Hashlock.Arithmetic.Power
import Hashlock.Error
import Hashlock.Rsa.Pss

/-!
# RSA signatures

A public key is a bare modulus: the public exponent is fixed. Signatures are PSS blocks to the
private power, as many bytes as the modulus.
-/

namespace Hashlock.Rsa

/-- The public exponent of every key. -/
def publicExponent : Nat := 65537

/-- The largest number of bits of a modulus. -/
def maxModulusBits : Nat := 4096

/-- The number of binary digits of a number. -/
def bitLength (n : Nat) : Nat := if n = 0 then 0 else n.log2 + 1

/-- The number of bytes that hold a number. -/
def byteLength (n : Nat) : Nat := (bitLength n + 7) / 8

/-- Whether a number can be a modulus: not too large, odd, and above the public exponent. -/
def checkModulus (n : Nat) : Except ModulusError Unit :=
  if maxModulusBits < bitLength n then .error .tooLarge
  else if n ≤ publicExponent ∨ n % 2 = 0 then .error .invalid
  else .ok ()

/-- Whether a signature of a message holds under a modulus, given as big-endian bytes; an error if
the modulus is no key. When the number of bits is one more than a multiple of eight, the PSS block
is a byte shorter than the modulus, and the byte in front of it is not looked at. -/
def verify (modulus message signature : Bytes) : Except VerifyError Bool :=
  let n := Integer.value modulus
  match checkModulus n with
  | .error cause => .error (.invalidRsaKey cause)
  | .ok () =>
    let s := Integer.value signature
    if signature.length ≠ byteLength n ∨ n ≤ s then .ok false
    else
      let bits := bitLength n - 1
      let block := Integer.bigEndian (Pss.blockLength bits) (powerMod s publicExponent n)
      .ok (Pss.accepts bits block message)

end Hashlock.Rsa
