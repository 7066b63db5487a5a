import Hashlock.Error
import Hashlock.Fingerprint
import Hashlock.Kind.Set

/-!
# Conditions

A condition is a commitment of small, fixed size: a kind, a fingerprint of the data behind it, a
bound for the cost of checking a fulfillment, and the set of kinds nested beneath it. Two rules
hold of every condition: only compound conditions have subtypes, and no condition lists its own
kind.
-/

namespace Hashlock

/-- A condition. -/
structure Condition where
  /-- The kind. -/
  kind : Kind
  /-- The digest of the data behind the condition. -/
  fingerprint : Fingerprint
  /-- A bound for the cost of checking a fulfillment. -/
  cost : UInt64
  /-- The kinds nested beneath the condition. -/
  subtypes : KindSet
  subtypes_of_simple : kind.isCompound = false → subtypes = ∅
  kind_not_mem_subtypes : kind ∉ subtypes
deriving DecidableEq

namespace Condition

/-- The condition with given parts. Subtypes of a simple kind are reported before a kind among its
own subtypes. -/
def ofParts (kind : Kind) (fingerprint : Fingerprint) (cost : UInt64) (subtypes : KindSet) :
    Except ConstructionError Condition :=
  if simple : kind.isCompound = false ∧ subtypes ≠ ∅ then .error (.unexpectedSubtypes kind)
  else if own : kind ∈ subtypes then .error (.ownKindInSubtypes kind)
  else .ok {
    kind, fingerprint, cost, subtypes
    subtypes_of_simple := fun h ↦ Decidable.not_not.mp fun ne ↦ simple ⟨h, ne⟩
    kind_not_mem_subtypes := own }

/-- Every condition is made of its own parts. -/
@[simp] theorem ofParts_self (c : Condition) :
    ofParts c.kind c.fingerprint c.cost c.subtypes = .ok c := by
  have simple : ¬ (c.kind.isCompound = false ∧ c.subtypes ≠ ∅) := fun h ↦
    h.2 (c.subtypes_of_simple h.1)
  simp [ofParts, simple, c.kind_not_mem_subtypes]

/-- A condition without subtypes. -/
def ofSimple (kind : Kind) (fingerprint : Fingerprint) (cost : UInt64) :
    Except ConstructionError Condition :=
  ofParts kind fingerprint cost ∅

/-- A condition without subtypes, of a kind that takes none. -/
def leaf (kind : Kind) (fingerprint : Fingerprint) (cost : UInt64) : Condition where
  kind := kind
  fingerprint := fingerprint
  cost := cost
  subtypes := ∅
  subtypes_of_simple _ := rfl
  kind_not_mem_subtypes := KindSet.not_mem_empty kind

/-- Whether the condition embeds others. -/
def isCompound (c : Condition) : Bool := c.kind.isCompound

/-- The kind of the condition and those nested beneath it. -/
def kinds (c : Condition) : KindSet := c.subtypes.insert c.kind

/-! ## Text -/

/-- The name of the kind, the fingerprint and the cost. -/
def toText (c : Condition) : String :=
  c.kind.name ++ ":" ++ c.fingerprint.toHex ++ ":" ++ Nat.repr c.cost.toNat

/-- The detailed text, which shows subtypes on compound conditions only. -/
def describe (c : Condition) : String :=
  let subtypes := if c.isCompound then ", subtypes: " ++ c.subtypes.describe else ""
  "Condition \x7b kind: " ++ c.kind.label ++ ", fingerprint: " ++ c.fingerprint.describe
    ++ ", cost: " ++ Nat.repr c.cost.toNat ++ subtypes ++ " \x7d"

end Condition

end Hashlock
