import Hashlock.Integer

/-!
# Reading tag, length and value

A reader stands somewhere in its input and has a ceiling for the length of any value. Every length
is compared with the ceiling and with the unread input before anything is cut off.

A failed read leaves the reader behind the bytes it had already consumed, and callers can see
that. Reading is therefore a state that survives failure: `Read` is `EStateM`, whose results carry
the reader in both outcomes.

## What is consumed on failure

* a tag that is not supported, and a length whose first byte is refused: that one byte;
* a length of more than one byte that is not minimal, above the ceiling or above the input: the
  length;
* a value under an unexpected tag: the whole of it.
-/

namespace Hashlock.Der

/-- A position in some input, together with a ceiling for lengths. -/
structure Reader where
  /-- The bytes not yet consumed. -/
  unread : Bytes
  /-- The largest length a value may declare. -/
  maxLength : UInt64
deriving DecidableEq

/-- A step that takes something from the front of the unread input. -/
abbrev Read := EStateM DecodeError Reader

namespace Reader

/-- The default ceiling for lengths: one mebibyte. -/
def defaultMaxLength : UInt64 := 1048576

/-- The number of unread bytes. -/
def remaining (r : Reader) : Nat := r.unread.length

/-- Whether everything is consumed. -/
def isEmpty (r : Reader) : Bool := r.unread.isEmpty

/-- The next tag, left where it is. -/
def peekTag? (r : Reader) : Option Tag := r.unread.head?.map Tag.mk

/-- A reader over another value with the same ceiling. -/
def nested (r : Reader) (value : Bytes) : Reader := { r with unread := value }

end Reader

namespace Read

/-! ## How steps run -/

theorem pure_apply (a : α) (r : Reader) : (pure a : Read α) r = .ok a r := rfl

theorem throw_apply (e : DecodeError) (r : Reader) : (throw e : Read α) r = .error e r := rfl

theorem get_apply (r : Reader) : (get : Read Reader) r = .ok r r := rfl

theorem bind_apply (m : Read α) (f : α → Read β) (r : Reader) :
    (m >>= f) r = match m r with
      | .ok a r' => f a r'
      | .error e r' => .error e r' := by
  simp only [bind, EStateM.bind]
  cases m r <;> rfl

/-! ## Single steps -/

/-- Take one byte. -/
def byte : Read UInt8 := fun r ↦
  match r.unread with
  | [] => .error .unexpectedEof r
  | b :: rest => .ok b { r with unread := rest }

/-- Take bytes off the front, as many as there are up to `n`. -/
def take (n : Nat) : Read Bytes := fun r ↦
  .ok (r.unread.take n) { r with unread := r.unread.drop n }

/-- Take a tag. -/
def tag : Read Tag := do
  let t := Tag.mk (← byte)
  if t.isLong then throw (.unsupportedTag t) else return t

/-- The number that the long form of a length declares with `count` bytes. A count above eight is
reported as the largest word. -/
def longLength (count : Nat) : Read Nat := do
  let r ← get
  if count = 0 then throw .indefiniteLength
  else if 8 < count then throw (.lengthTooLarge (UInt64.size - 1) r.maxLength)
  else if r.remaining < count then throw .unexpectedEof
  else
    let digits ← take count
    let declared := (Integer.word digits).toNat
    if digits.head? = some 0 ∨ declared < 0x80 then throw .nonMinimalLength else return declared

/-- Take a definite length and compare it with the ceiling and with the input. -/
def length : Read Nat := do
  let first ← byte
  let declared ← if first < 0x80 then pure first.toNat else longLength (first &&& 0x7f).toNat
  let r ← get
  if r.maxLength.toNat < declared then throw (.lengthTooLarge declared r.maxLength)
  else if r.remaining < declared then throw (.lengthExceedsInput declared r.remaining)
  else return declared

/-- Take a value with its tag. -/
def tlv : Read (Tag × Bytes) := do
  let t ← tag
  let n ← length
  let value ← take n
  return (t, value)

/-- Take a value that must stand under a given tag. -/
def expect (expected : Tag) : Read Bytes := do
  let (actual, value) ← tlv
  if actual = expected then return value else throw (.unexpectedTag expected actual)

/-- Require that everything is consumed. -/
def finish : Read Unit := do
  let r ← get
  if r.remaining = 0 then return () else throw (.trailingBytes r.remaining)

/-- Let a pure step fail where the reader stands. -/
def ofExcept : Except DecodeError α → Read α
  | .ok a => return a
  | .error e => throw e

/-- Take the value under a given tag and run a pure step on it. -/
def field (tag : Tag) (parse : Bytes → Except DecodeError α) : Read α := do
  ofExcept (parse (← expect tag))

/-! ## Steps inside a value -/

/-- Run `m` and require that it consumes everything. -/
def complete (m : Read α) : Read α := do
  let a ← m
  finish
  return a

/-- Run `m` on a value that was cut off, with the same ceiling, and require that it consumes all
of it. The outer reader stays where it is. -/
def within (value : Bytes) (m : Read α) : Read α := fun r ↦
  match complete m (r.nested value) with
  | .ok a _ => .ok a r
  | .error e _ => .error e r

/-- Read one value that fills the whole input. -/
def run (m : Read α) (maxLength : UInt64) (input : Bytes) : Except DecodeError α :=
  match complete m ⟨input, maxLength⟩ with
  | .ok a _ => .ok a
  | .error e _ => .error e

/-! ## Sets -/

/-- Run `m` and also give the bytes it consumed. -/
def withConsumed (m : Read α) : Read (α × Bytes) := do
  let before ← get
  let a ← m
  let after ← get
  return (a, before.unread.take (before.remaining - after.remaining))

/-- Read members until nothing is left, requiring each encoding to sort at or after the one before
it. The fuel bounds the number of members; the members read so far come in reverse. -/
def sortedMembers (m : Read α) : (fuel : Nat) → Option Bytes → List α → Read (List α)
  | 0, _, members => return members.reverse
  | fuel + 1, previous, members => do
    let r ← get
    if r.isEmpty then return members.reverse
    else
      let (a, encoded) ← withConsumed m
      if previous.any fun p ↦ Bytes.compare p encoded = .gt then throw .nonCanonicalSetOrder
      else sortedMembers m fuel (some encoded) (a :: members)

/-- Read a set that fills the rest of the input. Each member takes at least one byte, so the
number of unread bytes bounds the number of members. -/
def set (m : Read α) : Read (List α) := do
  let r ← get
  sortedMembers m r.remaining none []

end Read

end Hashlock.Der
