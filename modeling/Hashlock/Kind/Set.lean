import Hashlock.Error

/-!
# Sets of kinds

A set of kinds is five bits, so it cannot hold anything but registered kinds. On the wire it is
the content of a DER bit string: bit `n`, counted from the most significant bit of the first byte,
marks the kind with number `n`, trailing zero bits are left out, and a byte in front counts the
unused bits. Reading accepts exactly what writing produces.
-/

namespace Hashlock

/-- A set of kinds. -/
structure KindSet where
  /-- Bit `k.index` marks the kind `k`. -/
  mask : BitVec 5
deriving DecidableEq

namespace KindSet

/-! ## Members -/

/-- The set without members. -/
def empty : KindSet := ⟨0#5⟩

instance : EmptyCollection KindSet := ⟨empty⟩

/-- The set of all kinds. -/
def all : KindSet := ⟨BitVec.allOnes 5⟩

/-- The set with one member. -/
def singleton (k : Kind) : KindSet := ⟨BitVec.twoPow 5 k.index⟩

/-- Whether a kind is in the set. -/
def contains (s : KindSet) (k : Kind) : Bool := s.mask.getLsbD k.index

instance : Membership Kind KindSet := ⟨fun s k ↦ s.contains k = true⟩

instance (k : Kind) (s : KindSet) : Decidable (k ∈ s) :=
  inferInstanceAs (Decidable (s.contains k = true))

/-- The members of either set. -/
def union (s t : KindSet) : KindSet := ⟨s.mask ||| t.mask⟩

instance : Union KindSet := ⟨union⟩

/-- The set with a kind added. -/
def insert (s : KindSet) (k : Kind) : KindSet := s ∪ singleton k

/-- The set with a kind taken out. -/
def erase (s : KindSet) (k : Kind) : KindSet := ⟨s.mask &&& ~~~(singleton k).mask⟩

/-- The members of any of the sets. -/
def unions (sets : List KindSet) : KindSet := sets.foldr union ∅

/-- Whether every member of `s` is in `t`. -/
def isSubset (s t : KindSet) : Bool := s.mask &&& ~~~t.mask == 0#5

/-- Whether the set has no members. -/
def isEmpty (s : KindSet) : Bool := s.mask == 0#5

/-- The members in the order of their numbers. -/
def toList (s : KindSet) : List Kind := Kind.all.filter s.contains

/-- The set of the kinds in a list. -/
def ofList (ks : List Kind) : KindSet := ks.foldl insert ∅

/-- The number of members. -/
def size (s : KindSet) : Nat := s.toList.length

theorem mem_iff {s : KindSet} {k : Kind} : k ∈ s ↔ s.contains k = true := Iff.rfl

@[simp] theorem not_mem_empty (k : Kind) : ¬ k ∈ (∅ : KindSet) := by cases k <;> decide

@[simp] theorem mem_all (k : Kind) : k ∈ all := by cases k <;> decide

@[simp] theorem mem_singleton {j k : Kind} : j ∈ singleton k ↔ j = k := by
  cases j <;> cases k <;> decide

@[simp] theorem mem_union {s t : KindSet} {k : Kind} : k ∈ s ∪ t ↔ k ∈ s ∨ k ∈ t := by
  simp [mem_iff, Union.union, union, contains]

@[simp] theorem mem_insert {s : KindSet} {j k : Kind} : j ∈ s.insert k ↔ j ∈ s ∨ j = k := by
  rw [insert, mem_union, mem_singleton]

@[simp] theorem mem_erase {s : KindSet} {j k : Kind} : j ∈ s.erase k ↔ j ∈ s ∧ j ≠ k := by
  have h : (singleton k).mask.getLsbD j.index = decide (j = k) := by
    cases j <;> cases k <;> decide
  rw [mem_iff, mem_iff, contains, contains, erase, BitVec.getLsbD_and, BitVec.getLsbD_not, h]
  simp

theorem not_mem_erase_self (s : KindSet) (k : Kind) : k ∉ s.erase k := by simp

@[simp] theorem mem_unions {sets : List KindSet} {k : Kind} : k ∈ unions sets ↔ ∃ s ∈ sets, k ∈ s := by
  induction sets with
  | nil => simp [unions]
  | cons s sets ih =>
    rw [show unions (s :: sets) = s ∪ unions sets from rfl, mem_union, ih]
    simp

@[simp] theorem mem_toList {s : KindSet} {k : Kind} : k ∈ s.toList ↔ k ∈ s := by
  simp [toList, Kind.mem_all, mem_iff]

/-- Two sets with the same members are equal. -/
theorem ext_mem {s t : KindSet} (h : ∀ k, k ∈ s ↔ k ∈ t) : s = t := by
  obtain ⟨s⟩ := s
  obtain ⟨t⟩ := t
  simp only [mem_iff, contains, Bool.coe_iff_coe] at h
  congr 1
  ext i hi
  match i, hi with
  | 0, _ => exact h .preimage
  | 1, _ => exact h .prefixed
  | 2, _ => exact h .threshold
  | 3, _ => exact h .rsa
  | 4, _ => exact h .ed25519

/-! ## Bit strings -/

/-- The bit that marks a kind in the first byte of a bit string. -/
def bit (k : Kind) : UInt8 := 0x80 >>> k.id

/-- The content of the bit string for a set. -/
def encode (s : KindSet) : Bytes :=
  match s.toList.getLast? with
  | none => [0]
  | some last => [7 - last.id, s.toList.foldl (fun bits k ↦ bits ||| bit k) 0]

/-- The positions of the bits that are set, counted from the most significant bit of the first
byte. -/
def positions (bits : Bytes) : List Nat :=
  bits.zipIdx.flatMap fun (b, i) ↦
    ((List.range 8).filter fun j ↦ b &&& 0x80 >>> UInt8.ofNat j != 0).map (8 * i + ·)

/-- The kind that a bit position marks. A position above 255 is no kind's number at all. -/
def kindAt (position : Nat) : Except DecodeError Kind :=
  if 255 < position then .error .nonCanonicalBitString
  else match Kind.ofId? (UInt8.ofNat position) with
    | some k => .ok k
    | none => .error (.unknownKind (UInt8.ofNat position))

/-- Read the content of a bit string. The first bit that marks no kind is reported before any
fault in the form. -/
def decode (content : Bytes) : Except DecodeError KindSet :=
  match content with
  | [] => .error .nonCanonicalBitString
  | unused :: bits =>
    if 7 < unused ∨ (bits.isEmpty ∧ unused ≠ 0) then .error .nonCanonicalBitString
    else do
      let s := ofList (← (positions bits).mapM kindAt)
      if s.encode = content then return s else throw .nonCanonicalBitString

/-! ## Text -/

/-- The members in braces, as a value's detailed text shows them. -/
def describe (s : KindSet) : String :=
  "\x7b" ++ ", ".intercalate (s.toList.map Kind.label) ++ "\x7d"

end KindSet

end Hashlock
