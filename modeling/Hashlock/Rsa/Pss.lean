import Hashlock.Hash.Sha256
import Hashlock.Integer

/-!
# The PSS encoding of messages

The probabilistic encoding that is signed in place of a message, with SHA-256, a mask made by
hashing a seed with a counter, and a salt of 32 bytes.

An encoded block for `bits` bits is, from left to right,

* a masked data block: zeros, a one byte, and the salt, under a mask derived from the digest, with
  the bits cleared that the block has beyond `bits`;
* the digest of eight zeros, the digest of the message, and the salt;
* the byte `0xbc`.
-/

namespace Hashlock.Rsa.Pss

/-- The number of bytes of a digest, and of the salt. -/
def hashLength : Nat := 32

/-- The number of bytes of an encoded block for `bits` bits. -/
def blockLength (bits : Nat) : Nat := (bits + 7) / 8

/-- The first `n` bytes of the digests of a seed followed by a counter of four bytes. -/
def mask (seed : Bytes) (n : Nat) : Bytes :=
  ((List.range ((n + hashLength - 1) / hashLength)).flatMap fun i ↦
    Sha256.digest (seed ++ Integer.bigEndian 4 i)).take n

/-- Combine two byte strings bit by bit. -/
def xor (a b : Bytes) : Bytes := List.zipWith (· ^^^ ·) a b

/-- The bits of the first byte of a block that belong to the `bits` bits. -/
def usedBits (bits : Nat) : UInt8 := 0xff >>> UInt8.ofNat (8 * blockLength bits - bits)

/-- Clear the bits of the first byte that lie beyond `bits`. -/
def clearUnused (bits : Nat) : Bytes → Bytes
  | [] => []
  | b :: rest => (b &&& usedBits bits) :: rest

/-- The digest that ties a salt to a message. -/
def saltedDigest (message salt : Bytes) : Bytes :=
  Sha256.digest (List.replicate 8 0 ++ Sha256.digest message ++ salt)

/-- The encoded block of a message under a salt of 32 bytes, if `bits` bits have room for it. -/
def encode? (bits : Nat) (salt message : Bytes) : Option Bytes :=
  let length := blockLength bits
  if length < 2 * hashLength + 2 then none
  else
    let digest := saltedDigest message salt
    let data := List.replicate (length - 2 * hashLength - 2) 0 ++ 1 :: salt
    some (clearUnused bits (xor data (mask digest data.length)) ++ digest ++ [0xbc])

/-- Whether a block of `bits` bits encodes a message under some salt. -/
def accepts (bits : Nat) (block message : Bytes) : Bool :=
  let length := blockLength bits
  if length < 2 * hashLength + 2 ∨ block.getLast? ≠ some 0xbc then false
  else
    let masked := block.take (length - hashLength - 1)
    let digest := (block.drop (length - hashLength - 1)).take hashLength
    if clearUnused bits masked ≠ masked then false
    else
      let data := clearUnused bits (xor masked (mask digest masked.length))
      let (zeros, rest) := data.splitAt (length - 2 * hashLength - 2)
      zeros.all (· == 0) && rest.head? == some 1 && saltedDigest message (rest.drop 1) == digest

end Hashlock.Rsa.Pss
