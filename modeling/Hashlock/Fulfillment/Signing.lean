import Hashlock.Fulfillment.Construction
import Hashlock.Rsa.PrivateKey

/-!
# Signing

Fulfillments made by signing a message. RSA signatures are salted; the salt is given, so that
signing is a function.
-/

namespace Hashlock.Fulfillment

/-- Sign a message with an Ed25519 key. -/
def signEd25519 (key : Ed25519.SecretKey) (message : Bytes) : Fulfillment :=
  ofEd25519 key.publicKey (key.sign message)

/-- Sign a message with an RSA key under a salt of 32 bytes. A key that is too short to sign is
reported like any other that is too short. -/
def signRsa (key : Rsa.PrivateKey) (salt message : Bytes) : Except ConstructionError Fulfillment :=
  match key.sign? salt message with
  | some signature => ofRsa key.publicModulus signature
  | none => .error (.invalidModulusLength key.publicModulus.length)

end Hashlock.Fulfillment
