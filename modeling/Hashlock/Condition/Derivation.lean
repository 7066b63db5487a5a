import Hashlock.Condition.Contents
import Hashlock.Cost

/-!
# Deriving conditions

The condition of each kind from public data: fingerprint, cost and subtypes follow from what is
committed to. Nothing secret and no signature is needed.
-/

namespace Hashlock.Condition

/-! ## Subtypes -/

/-- The kinds of some branches and everything nested beneath them, without `own`. -/
def nestedKinds (own : Kind) (branches : List Condition) : KindSet :=
  (KindSet.unions (branches.map kinds)).erase own

theorem not_mem_nestedKinds (own : Kind) (branches : List Condition) :
    own ∉ nestedKinds own branches :=
  KindSet.not_mem_erase_self _ _

/-- A compound condition over branches. -/
def compound (own : Kind) (isCompound : own.isCompound = true) (contents : Bytes) (cost : UInt64)
    (branches : List Condition) : Condition where
  kind := own
  fingerprint := Fingerprint.digest contents
  cost := cost
  subtypes := nestedKinds own branches
  subtypes_of_simple h := by simp [isCompound] at h
  kind_not_mem_subtypes := not_mem_nestedKinds own branches

/-! ## The five kinds -/

/-- The condition of a preimage. Its cost is the length of the preimage. -/
def ofPreimage (preimage : Bytes) : Condition :=
  leaf .preimage (Fingerprint.digest preimage) (UInt64.ofNat preimage.length)

/-- The condition that a message has at most the given length and, behind the prefix, satisfies a
nested condition. -/
def ofPrefix (prefixBytes : Bytes) (maxMessageLength : UInt64) (nested : Condition) :
    Except ConstructionError Condition :=
  match Cost.prefixed? prefixBytes.length maxMessageLength nested.cost with
  | none => .error .costOverflow
  | some cost =>
    .ok (compound .prefixed rfl (Contents.prefixed prefixBytes maxMessageLength nested) cost
      [nested])

/-- The condition that at least `threshold` of the branches are satisfied. -/
def ofThreshold (threshold : Nat) (branches : List Condition) :
    Except ConstructionError Condition :=
  if threshold = 0 then .error .zeroThreshold
  else if branches.length < threshold then .error (.thresholdTooLarge threshold branches.length)
  else match Cost.threshold? threshold (branches.map cost) with
    | none => .error .costOverflow
    | some cost =>
      .ok (compound .threshold rfl (Contents.threshold threshold branches) cost branches)

/-- The smallest number of bytes of an RSA modulus. -/
def minModulusLength : Nat := 128

/-- The largest number of bytes of an RSA modulus. -/
def maxModulusLength : Nat := 512

/-- The condition of a signature under an RSA modulus, where leading zero bytes do not count. -/
def ofRsaModulus (modulus : Bytes) : Except ConstructionError Condition :=
  let digits := Integer.magnitude modulus
  if digits.length < minModulusLength ∨ maxModulusLength < digits.length then
    .error (.invalidModulusLength digits.length)
  else
    .ok (leaf .rsa (Fingerprint.digest (Contents.rsa digits))
      (Cost.rsa (UInt64.ofNat digits.length)))

/-- The condition of a signature under an Ed25519 key, which is not examined. -/
def ofEd25519Key (key : Ed25519.PublicKey) : Condition :=
  leaf .ed25519 (Fingerprint.digest (Contents.ed25519 key)) Cost.ed25519

end Hashlock.Condition
