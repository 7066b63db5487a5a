import Hashlock.Integer

/-!
# The SHA-2 construction

SHA-256 and SHA-512 are one construction at two word sizes. `Variant` names what tells them
apart: how words are read, written and rotated, the rotation amounts, the initial state and the
round constants, whose number is the number of rounds.

A message is padded to whole blocks with a one bit, zeros and its length in bits. Each block of
sixteen words is expanded to one word a round by `schedule`, and the rounds mix these words into
the state.
-/

namespace Hashlock.Sha2

/-- The eight words of the state. -/
structure State (W : Type) where
  (a b c d e f g h : W)

namespace State

variable {W : Type}

/-- The words of a state in order. -/
def toList (s : State W) : List W := [s.a, s.b, s.c, s.d, s.e, s.f, s.g, s.h]

/-- Word by word addition. -/
def add [Add W] (s t : State W) : State W where
  a := s.a + t.a
  b := s.b + t.b
  c := s.c + t.c
  d := s.d + t.d
  e := s.e + t.e
  f := s.f + t.f
  g := s.g + t.g
  h := s.h + t.h

end State

/-- What tells one member of the family from another. -/
structure Variant (W : Type) where
  /-- The number of bytes in a word. -/
  wordBytes : Nat
  /-- A word from its big-endian value. -/
  ofNat : Nat → W
  /-- The big-endian value of a word. -/
  toNat : W → Nat
  /-- Shift towards the low end. -/
  shiftRight : W → Nat → W
  /-- Rotate towards the low end. -/
  rotateRight : W → Nat → W
  /-- Rotations of the large sigma over `a`. -/
  sigmaA : Nat × Nat × Nat
  /-- Rotations of the large sigma over `e`. -/
  sigmaE : Nat × Nat × Nat
  /-- Two rotations and a shift of the small sigma over the older word of the schedule. -/
  sigmaOld : Nat × Nat × Nat
  /-- Two rotations and a shift of the small sigma over the newer word of the schedule. -/
  sigmaNew : Nat × Nat × Nat
  /-- The state before the first block. -/
  initial : State W
  /-- The round constants. -/
  constants : List W

namespace Variant

variable {W : Type} (v : Variant W)

/-- The number of bytes in a block. -/
def blockBytes : Nat := 16 * v.wordBytes

/-! ## Padding -/

/-- The bytes after a message of `n` bytes: a one bit, zeros, and the number of bits of the
message in two words. -/
def padding (n : Nat) : Bytes :=
  let zeros := (2 * v.blockBytes - 1 - 2 * v.wordBytes - n % v.blockBytes) % v.blockBytes
  0x80 :: (List.replicate zeros 0 ++ Integer.bigEndian (2 * v.wordBytes) (8 * n))

/-- The words that consecutive bytes form. -/
def words : (count : Nat) → Bytes → List W
  | 0, _ => []
  | count + 1, bs =>
    v.ofNat (Integer.value (bs.take v.wordBytes)) :: words count (bs.drop v.wordBytes)

/-! ## The compression function -/

section Mixing

variable [Add W] [XorOp W] [AndOp W] [Complement W]

/-- Three rotations of a word, combined. -/
@[specialize] def bigSigma (r : Nat × Nat × Nat) (x : W) : W :=
  v.rotateRight x r.1 ^^^ v.rotateRight x r.2.1 ^^^ v.rotateRight x r.2.2

/-- Two rotations and a shift of a word, combined. -/
@[specialize] def smallSigma (r : Nat × Nat × Nat) (x : W) : W :=
  v.rotateRight x r.1 ^^^ v.rotateRight x r.2.1 ^^^ v.shiftRight x r.2.2

/-- Add `n` words to a schedule that is held with the newest word first. -/
@[specialize] def extend : (n : Nat) → List W → List W
  | 0, ws => ws
  | n + 1, ws =>
    let back (i : Nat) : W := ws.getD i (v.ofNat 0)
    extend n
      ((v.smallSigma v.sigmaNew (back 1) + back 6 + v.smallSigma v.sigmaOld (back 14) + back 15) :: ws)

/-- The words of all rounds for one block. -/
@[specialize] def schedule (block : Bytes) : List W :=
  (v.extend (v.constants.length - 16) (v.words 16 block).reverse).reverse

/-- One round, with its constant and its word of the schedule. -/
@[specialize] def round (s : State W) (kw : W × W) : State W :=
  let choice := (s.e &&& s.f) ^^^ (~~~s.e &&& s.g)
  let majority := (s.a &&& s.b) ^^^ (s.a &&& s.c) ^^^ (s.b &&& s.c)
  let t₁ := s.h + v.bigSigma v.sigmaE s.e + choice + kw.1 + kw.2
  let t₂ := v.bigSigma v.sigmaA s.a + majority
  { a := t₁ + t₂, b := s.a, c := s.b, d := s.c, e := s.d + t₁, f := s.e, g := s.f, h := s.g }

/-- The state after one more block. -/
@[specialize] def compress (s : State W) (block : Bytes) : State W :=
  ((v.constants.zip (v.schedule block)).foldl v.round s).add s

/-- The state after `n` more blocks. -/
@[specialize] def absorb : (n : Nat) → State W → Bytes → State W
  | 0, s, _ => s
  | n + 1, s, bs => absorb n (v.compress s (bs.take v.blockBytes)) (bs.drop v.blockBytes)

/-- The digest of a message. -/
@[specialize] def digest (message : Bytes) : Bytes :=
  let padded := message ++ v.padding message.length
  let final := v.absorb (padded.length / v.blockBytes) v.initial padded
  final.toList.flatMap fun w ↦ Integer.bigEndian v.wordBytes (v.toNat w)

theorem length_digest (message : Bytes) : (v.digest message).length = 8 * v.wordBytes := by
  simp [digest, State.toList]
  omega

end Mixing

end Variant

end Hashlock.Sha2
