import Hashlock.Bytes

/-!
# Base64

Groups of four characters stand for three bytes, with `=` in place of the characters that a last
group of one or two bytes lacks. Reading is strict: the number of characters is a multiple of
four, padding stands at the end only, and the bits that padding leaves unused are zero.
-/

namespace Hashlock.Base64

/-- The six bits that a character stands for. -/
def digit? (c : Char) : Option Nat :=
  if 'A' ≤ c ∧ c ≤ 'Z' then some (c.toNat - 65)
  else if 'a' ≤ c ∧ c ≤ 'z' then some (c.toNat - 71)
  else if '0' ≤ c ∧ c ≤ '9' then some (c.toNat + 4)
  else if c = '+' then some 62
  else if c = '/' then some 63
  else none

/-- The bytes of a last group with two digits, whose last four bits must be zero. -/
def oneByte? (a b : Char) : Option Bytes := do
  let n := (← digit? a) * 64 + (← digit? b)
  if n % 16 = 0 then some [UInt8.ofNat (n / 16)] else none

/-- The bytes of a last group with three digits, whose last two bits must be zero. -/
def twoBytes? (a b c : Char) : Option Bytes := do
  let n := ((← digit? a) * 64 + (← digit? b)) * 64 + (← digit? c)
  if n % 4 = 0 then some [UInt8.ofNat (n / 1024), UInt8.ofNat (n / 4)] else none

/-- The bytes of a group with four digits. -/
def threeBytes? (a b c d : Char) : Option Bytes := do
  let n := (((← digit? a) * 64 + (← digit? b)) * 64 + (← digit? c)) * 64 + (← digit? d)
  some [UInt8.ofNat (n / 65536), UInt8.ofNat (n / 256), UInt8.ofNat n]

/-- Read base64 with padding. -/
def decode? : List Char → Option Bytes
  | [] => some []
  | [a, b, '=', '='] => oneByte? a b
  | [a, b, c, '='] => twoBytes? a b c
  | a :: b :: c :: d :: rest => do
    let group ← threeBytes? a b c d
    return group ++ (← decode? rest)
  | _ => none

/-- Read base64 in which every group is full. -/
def decodeUnpadded? (cs : List Char) : Option Bytes := if '=' ∈ cs then none else decode? cs

end Hashlock.Base64
