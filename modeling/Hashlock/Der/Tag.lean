/-!
# Identifier octets

A DER identifier in its one-byte form: two bits of class, one bit that tells constructed values
from primitive ones, and a tag number of five bits. The number with all bits set announces a
longer identifier and is not used here.
-/

namespace Hashlock.Der

/-- A one-byte identifier. -/
structure Tag where
  /-- The identifier as a byte. -/
  byte : UInt8
deriving DecidableEq, Repr

namespace Tag

/-- The two class bits. -/
def classBits (t : Tag) : UInt8 := t.byte >>> 6

/-- Whether the constructed bit is set. -/
def isConstructed (t : Tag) : Bool := t.byte &&& 0x20 != 0

/-- The tag number, from the low five bits. -/
def number (t : Tag) : UInt8 := t.byte &&& 0x1f

/-- Whether the class is context-specific. -/
def isContextSpecific (t : Tag) : Bool := t.classBits == 2

/-- The tag of a primitive value in field `n` of a structure. -/
def context (n : UInt8) : Tag := ⟨0x80 ||| n⟩

/-- The tag of a constructed value in field `n` of a structure. -/
def contextConstructed (n : UInt8) : Tag := ⟨0x80 ||| 0x20 ||| n⟩

/-- The tag of an integer. -/
def integer : Tag := ⟨0x02⟩

/-- The tag of a sequence. -/
def sequence : Tag := ⟨0x30⟩

/-- Whether the number has all five bits set, which announces a longer identifier. -/
def isLong (t : Tag) : Bool := t.number == 0x1f

end Tag

end Hashlock.Der
