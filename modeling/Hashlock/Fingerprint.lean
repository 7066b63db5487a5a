import Hashlock.Bytes.Fixed
import Hashlock.Hash.Sha256

/-!
# Fingerprints

The 32 bytes by which a condition commits to the data behind it: the SHA-256 digest of its
fingerprint contents.
-/

namespace Hashlock

/-- The digest that a condition commits to. -/
structure Fingerprint extends FixedBytes 32
deriving DecidableEq

namespace Fingerprint

/-- The fingerprint with given bytes, if there are 32 of them. -/
def ofBytes? (bs : Bytes) : Option Fingerprint := (FixedBytes.ofBytes? bs).map mk

@[simp] theorem ofBytes?_bytes (f : Fingerprint) : ofBytes? f.bytes = some f := by
  simp [ofBytes?]

/-- The SHA-256 digest of some contents. -/
def digest (contents : Bytes) : Fingerprint where
  bytes := Sha256.digest contents
  length_bytes := Sha256.length_digest contents

/-! ## Text -/

/-- Read a fingerprint from hexadecimal text. -/
def ofHex (s : String) : Except HexError Fingerprint := do
  match ofBytes? (← Hex.decode s) with
  | some f => return f
  | none => throw .invalidLength

/-- The abbreviated form inside the detailed text of a value. -/
def describe (f : Fingerprint) : String := "Fingerprint(" ++ f.shortHex ++ ")"

end Fingerprint

end Hashlock
