/-!
# The five kinds of condition

A closed registry: each kind has a number, which selects the outer tag of its encodings, and a
machine name. Prefix and threshold conditions are compound, that is, they embed other conditions.
-/

namespace Hashlock

/-- A kind of condition. -/
inductive Kind where
  /-- Reveal the preimage of a SHA-256 digest. -/
  | preimage
  /-- Prepend fixed bytes to the message of a nested condition. -/
  | prefixed
  /-- Fulfil a number of nested conditions. -/
  | threshold
  /-- Give an RSA-PSS signature of the message. -/
  | rsa
  /-- Give an Ed25519 signature of the message. -/
  | ed25519
deriving DecidableEq, Repr

namespace Kind

/-- Every kind, in the order of their numbers. -/
def all : List Kind := [preimage, prefixed, threshold, rsa, ed25519]

theorem mem_all (k : Kind) : k ∈ all := by cases k <;> decide

/-! ## Numbers -/

/-- The position of a kind in the registry. -/
def index : Kind → Fin 5
  | preimage => 0
  | prefixed => 1
  | threshold => 2
  | rsa => 3
  | ed25519 => 4

theorem index_injective {a b : Kind} (h : a.index = b.index) : a = b := by
  revert h; cases a <;> cases b <;> decide

/-- The number of a kind, as it stands in tags. -/
def id (k : Kind) : UInt8 := UInt8.ofNat k.index

/-- The kind with a number, if it is registered. -/
def ofId? : UInt8 → Option Kind
  | 0 => some preimage
  | 1 => some prefixed
  | 2 => some threshold
  | 3 => some rsa
  | 4 => some ed25519
  | _ => none

@[simp] theorem ofId?_id (k : Kind) : ofId? k.id = some k := by cases k <;> rfl

theorem ofId?_eq_none_of_lt {id : UInt8} (h : 4 < id.toNat) : ofId? id = none := by
  unfold ofId?
  split <;> first | rfl | exact absurd h (by decide)

/-! ## Names -/

/-- The machine name of a kind. -/
def name : Kind → String
  | preimage => "preimage-sha-256"
  | prefixed => "prefix-sha-256"
  | threshold => "threshold-sha-256"
  | rsa => "rsa-sha-256"
  | ed25519 => "ed25519-sha-256"

/-- The kind with a machine name, where the case of ASCII letters does not count. -/
def ofName? (s : String) : Option Kind := all.find? fun k ↦ k.name.toLower == s.toLower

/-- The name of a kind inside the detailed text of a value. -/
def label : Kind → String
  | preimage => "PreimageSha256"
  | prefixed => "PrefixSha256"
  | threshold => "ThresholdSha256"
  | rsa => "RsaSha256"
  | ed25519 => "Ed25519Sha256"

/-! ## Compound kinds -/

/-- Whether conditions of this kind embed others. -/
def isCompound : Kind → Bool
  | prefixed | threshold => true
  | preimage | rsa | ed25519 => false

end Kind

/-- A name that belongs to no kind. -/
structure UnknownKindName where
  /-- The name as it was given. -/
  name : String
deriving DecidableEq, Repr

/-- The text of the error. -/
def UnknownKindName.message (e : UnknownKindName) : String :=
  "unknown condition type name: " ++ e.name

/-- The kind with a machine name, or the name that was not found. -/
def Kind.parse (s : String) : Except UnknownKindName Kind :=
  match ofName? s with
  | some k => .ok k
  | none => .error ⟨s⟩

end Hashlock
