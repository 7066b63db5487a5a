import Hashlock.Fulfillment.Decoding
import Hashlock.Fulfillment.Verification

/-!
# Verifying under a policy

A policy bounds what untrusted input may ask for: limits for decoding, a ceiling for the cost of a
condition, and the kinds that a condition may have or nest. Conditions are held against the policy
before any hash or signature is computed. What a policy does not let through is rejected with the
first reason found.
-/

namespace Hashlock

/-- What is accepted. -/
structure Policy where
  /-- Bounds for decoding. -/
  limits : Limits := {}
  /-- The largest cost of a condition. -/
  maxCost : UInt64 := 67108864
  /-- The kinds that a condition may have or nest. -/
  allowedKinds : KindSet := KindSet.all
deriving DecidableEq

/-- Why there is no answer. -/
inductive Rejection where
  /-- Bytes that are not a canonical encoding. -/
  | decode (cause : DecodeError)
  /-- Parts that do not make up a value. -/
  | construction (cause : ConstructionError)
  /-- A message or a key that cannot be checked. -/
  | verify (cause : VerifyError)
  /-- A condition that costs more than the policy allows. -/
  | costExceeded (cost max : UInt64)
  /-- A kind that the policy does not allow. -/
  | kindNotAllowed (kind : Kind)
deriving DecidableEq, Repr

/-- The text of a rejection. -/
def Rejection.message : Rejection → String
  | .decode cause => "decode error: " ++ cause.message
  | .construction cause => "construction error: " ++ cause.message
  | .verify cause => "verify error: " ++ cause.message
  | .costExceeded cost max =>
    "condition cost " ++ Nat.repr cost.toNat ++ " exceeds maximum " ++ Nat.repr max.toNat
  | .kindNotAllowed kind => "condition type not allowed: " ++ kind.name

namespace Policy

/-- Decode a condition within the limits. -/
def decodeCondition (policy : Policy) (bs : Bytes) : Except Rejection Condition :=
  (Condition.decode policy.limits bs).mapError .decode

/-- Decode a fulfillment within the limits. -/
def decodeFulfillment (policy : Policy) (bs : Bytes) : Except Rejection Fulfillment :=
  (Fulfillment.decode policy.limits bs).mapError .decode

/-- The first kind of a condition that is not allowed: its own kind, then its subtypes in order. -/
def firstDisallowed? (policy : Policy) (c : Condition) : Option Kind :=
  (c.kind :: c.subtypes.toList).find? fun k ↦ !policy.allowedKinds.contains k

/-- Hold a condition against the ceiling for its cost and then against the allowed kinds. -/
def check (policy : Policy) (c : Condition) : Except Rejection Unit :=
  if policy.maxCost < c.cost then .error (.costExceeded c.cost policy.maxCost)
  else match policy.firstDisallowed? c with
    | some kind => .error (.kindNotAllowed kind)
    | none => .ok ()

/-- Check a fulfillment against a condition that the policy allows. -/
def verify (policy : Policy) (f : Fulfillment) (c : Condition) (message : Bytes) :
    Except Rejection Bool := do
  policy.check c
  (f.verify c message).mapError .verify

/-- Decode a condition, hold it against the policy, decode a fulfillment, and check it against the
condition. -/
def verifyEncoded (policy : Policy) (fulfillment condition message : Bytes) :
    Except Rejection Bool := do
  let c ← policy.decodeCondition condition
  policy.check c
  let f ← policy.decodeFulfillment fulfillment
  policy.verify f c message

end Policy

end Hashlock
