import Hashlock.Proofs.Der.Tlv

/-!
# Reading by position

A `Reader` holds what is unread, so it cannot stand outside of its input. A `Cursor` can: it keeps
the whole buffer and a position in it, counts what is left by a subtraction, and cuts values out
between two places. `Scan` has the steps of a reader in that form. Each of them checks what it takes
from the buffer, and what would be taken from outside of it is a fault of its own, apart from the
errors that are reported.

`Mirrors scan m` ties the two forms together. From every position within the buffer, `scan` does what
`m` does with the bytes from there on: it gives the same value or reports the same error, and leaves
the cursor where `m` leaves the reader. There is no case for a fault, so a step that mirrors another
has none; and as it ends within the buffer in both cases, so has any step after it, also after a
failure.
-/

namespace Hashlock.Der

/-- A position in a buffer, together with a ceiling for lengths. -/
structure Cursor where
  /-- All bytes of the input. -/
  buffer : Bytes
  /-- The number of bytes consumed. -/
  position : Nat
  /-- The largest length a value may declare. -/
  maxLength : UInt64

/-- Why a scan stops. -/
inductive Fault
  /-- Something was taken from outside of the buffer. -/
  | outOfBounds
  /-- An error of the input. -/
  | reported (e : DecodeError)

/-- A step of a cursor. Like a reader, the cursor survives a failure. -/
abbrev Scan := EStateM Fault Cursor

namespace Cursor

/-- A cursor in front of some bytes. -/
def start (buffer : Bytes) (maxLength : UInt64) : Cursor := ⟨buffer, 0, maxLength⟩

/-- The reader that stands where the cursor does. -/
def reader (c : Cursor) : Reader := ⟨c.buffer.drop c.position, c.maxLength⟩

/-- A cursor over another value with the same ceiling. -/
def nested (c : Cursor) (value : Bytes) : Cursor := start value c.maxLength

/-- The next tag, left where it is. -/
def peekTag? (c : Cursor) : Option Tag := c.buffer[c.position]?.map Tag.mk

/-- The position is within the buffer or at its end. -/
def InBounds (c : Cursor) : Prop := c.position ≤ c.buffer.length

/-- A move that keeps the buffer and the ceiling, does not go back, and ends within the buffer. -/
structure Forward (c c' : Cursor) : Prop where
  buffer_eq : c'.buffer = c.buffer
  maxLength_eq : c'.maxLength = c.maxLength
  position_le : c.position ≤ c'.position
  inBounds : c'.InBounds

variable {c c' c'' : Cursor}

theorem inBounds_start (buffer : Bytes) (maxLength : UInt64) : (start buffer maxLength).InBounds :=
  Nat.zero_le _

theorem remaining_reader (c : Cursor) :
    c.reader.remaining = c.buffer.length - c.position := List.length_drop

theorem peekTag?_reader (c : Cursor) : c.reader.peekTag? = c.peekTag? := by
  rw [Reader.peekTag?, peekTag?, reader, List.head?_drop]

namespace Forward

theorem refl (h : c.InBounds) : c.Forward c := ⟨rfl, rfl, Nat.le_refl _, h⟩

theorem trans (h : c.Forward c') (h' : c'.Forward c'') : c.Forward c'' :=
  ⟨h'.buffer_eq.trans h.buffer_eq, h'.maxLength_eq.trans h.maxLength_eq,
    Nat.le_trans h.position_le h'.position_le, h'.inBounds⟩

/-- What is left never grows. -/
theorem remaining_le (h : c.Forward c') : c'.reader.remaining ≤ c.reader.remaining := by
  rw [remaining_reader, remaining_reader, h.buffer_eq]
  exact Nat.sub_le_sub_left h.position_le _

/-- A cursor that has taken some bytes stands behind them. -/
theorem position_eq (h : c.Forward c') {taken : Bytes}
    (htaken : c.reader.unread = taken ++ c'.reader.unread) :
    c'.position = c.position + taken.length
      ∧ (c.buffer.drop c.position).take (c'.position - c.position) = taken := by
  have hlen := congrArg List.length htaken
  have hin := h.inBounds
  have hle := h.position_le
  rw [InBounds, h.buffer_eq] at hin
  rw [List.length_append, ← Reader.remaining, ← Reader.remaining, remaining_reader,
    remaining_reader, h.buffer_eq] at hlen
  have hposition : c'.position = c.position + taken.length := by omega
  refine ⟨hposition, ?_⟩
  rw [hposition, Nat.add_sub_cancel_left]
  exact (congrArg (List.take taken.length) htaken).trans List.take_left

end Forward

end Cursor

namespace Scan

/-! ## Steps -/

/-- Report an error of the input. -/
def report {α : Type} (e : DecodeError) : Scan α := throw (.reported e)

/-- The largest length a value may declare. -/
def ceiling : Scan UInt64 := fun c ↦ .ok c.maxLength c

/-- The number of bytes left. -/
def remaining : Scan Nat := fun c ↦
  if c.position ≤ c.buffer.length then .ok (c.buffer.length - c.position) c
  else .error .outOfBounds c

/-- Take one byte. -/
def byte : Scan UInt8 := fun c ↦
  match c.buffer[c.position]? with
  | none => .error (.reported .unexpectedEof) c
  | some b => .ok b { c with position := c.position + 1 }

/-- Cut out `n` bytes and go behind them. -/
def slice (n : Nat) : Scan Bytes := fun c ↦
  if c.position + n ≤ c.buffer.length then
    .ok ((c.buffer.drop c.position).take n) { c with position := c.position + n }
  else .error .outOfBounds c

/-- The first of some bytes that were cut out. -/
def first (bs : Bytes) : Scan UInt8 :=
  match bs[0]? with
  | none => throw .outOfBounds
  | some b => return b

/-- Take a tag. -/
def tag : Scan Tag := do
  let t := Tag.mk (← byte)
  if t.isLong then report (.unsupportedTag t) else return t

/-- The number that the long form of a length declares with `count` bytes. -/
def longLength (count : Nat) : Scan Nat := do
  if count = 0 then report .indefiniteLength
  else if 8 < count then
    let max ← ceiling
    report (.lengthTooLarge (UInt64.size - 1) max)
  else
    let left ← remaining
    if left < count then report .unexpectedEof
    else
      let digits ← slice count
      let leading ← first digits
      let declared := (Integer.word digits).toNat
      if leading = 0 then report .nonMinimalLength
      else if declared < 0x80 then report .nonMinimalLength
      else return declared

/-- The length that is declared, before it is held against the ceiling and the input. -/
def declaredLength : Scan Nat := do
  let mark ← byte
  if mark < 0x80 then pure mark.toNat else longLength (mark &&& 0x7f).toNat

/-- Take a definite length and compare it with the ceiling and with the input. -/
def length : Scan Nat := do
  let declared ← declaredLength
  let max ← ceiling
  if max.toNat < declared then report (.lengthTooLarge declared max)
  else
    let left ← remaining
    if left < declared then report (.lengthExceedsInput declared left) else return declared

/-- Take a value with its tag. -/
def tlv : Scan (Tag × Bytes) := do
  let t ← tag
  let n ← length
  let value ← slice n
  return (t, value)

/-- Take a value that must stand under a given tag. -/
def expect (expected : Tag) : Scan Bytes := do
  let (actual, value) ← tlv
  if actual = expected then return value else report (.unexpectedTag expected actual)

/-- Require that everything is consumed. -/
def finish : Scan Unit := do
  let left ← remaining
  if left = 0 then return () else report (.trailingBytes left)

/-! ## Following a reader -/

variable {α β : Type} {c : Cursor}

/-- What comes of a scan from `c`, beside what comes of reading from there. -/
inductive Follows (c : Cursor) :
    EStateM.Result Fault Cursor α → EStateM.Result DecodeError Reader α → Prop
  | ok {a : α} {c' : Cursor} (h : c.Forward c') : Follows c (.ok a c') (.ok a c'.reader)
  | error {e : DecodeError} {c' : Cursor} (h : c.Forward c') :
      Follows c (.error (.reported e) c') (.error e c'.reader)

/-- From every position within the buffer, `scan` does what `m` does with the bytes that follow. -/
def Mirrors (scan : Scan α) (m : Read α) : Prop :=
  ∀ ⦃c : Cursor⦄, c.InBounds → Follows c (scan c) (m c.reader)

theorem bind_of_ok {x : Scan α} {f : α → Scan β} {c' : Cursor} {a : α} (h : x c = .ok a c') :
    (x >>= f) c = f a c' := by
  simp only [bind, EStateM.bind, h]

theorem remaining_apply (h : c.InBounds) : remaining c = .ok c.reader.remaining c := by
  have h : c.position ≤ c.buffer.length := h
  rw [remaining, if_pos h, Cursor.remaining_reader]

theorem ceiling_apply (c : Cursor) : ceiling c = .ok c.reader.maxLength c := rfl

theorem mirrors_pure (a : α) : Mirrors (pure a) (pure a) := fun _ h ↦ .ok (.refl h)

theorem mirrors_report (e : DecodeError) : Mirrors (report (α := α) e) (throw e) :=
  fun _ h ↦ .error (.refl h)

theorem Follows.of_forward {c' : Cursor} {x : EStateM.Result Fault Cursor α}
    {y : EStateM.Result DecodeError Reader α} (h : c.Forward c') (hx : Follows c' x y) :
    Follows c x y := by
  cases hx with
  | ok h' => exact .ok (h.trans h')
  | error h' => exact .error (h.trans h')

theorem Follows.of_error {c' : Cursor} {f : Fault} {x : EStateM.Result DecodeError Reader α}
    (h : Follows c (.error f c') x) :
    ∃ e, f = .reported e ∧ x = .error e c'.reader ∧ c.Forward c' := by
  cases h with
  | error hforward => exact ⟨_, rfl, rfl, hforward⟩

theorem Follows.bind {x : Scan α} {m : Read α} {f : α → Scan β} {g : α → Read β}
    (hx : Follows c (x c) (m c.reader))
    (hf : ∀ a c', m c.reader = .ok a c'.reader → c.Forward c' →
      Follows c' (f a c') (g a c'.reader)) :
    Follows c ((x >>= f) c) ((m >>= g) c.reader) := by
  generalize hscan : x c = result, hread : m c.reader = result' at hx
  cases hx with
  | @ok a c' h =>
    rw [bind_of_ok hscan, Read.bind_of_ok hread]
    exact .of_forward h (hf a c' hread h)
  | error h =>
    rw [Read.bind_apply, hread]
    simp only [Bind.bind, EStateM.bind, hscan]
    exact .error h

/-- A step that ends within the buffer, if it ends at all, may be followed by any other. -/
theorem Mirrors.bind {x : Scan α} {m : Read α} {f : α → Scan β} {g : α → Read β}
    (hx : Mirrors x m) (hf : ∀ a, Mirrors (f a) (g a)) : Mirrors (x >>= f) (m >>= g) :=
  fun _ h ↦ (hx h).bind fun a _ _ h' ↦ hf a h'.inBounds

/-! ## The steps of a reader -/

theorem mirrors_byte : Mirrors byte Read.byte := by
  intro c h
  rw [byte, Read.byte]
  by_cases hlt : c.position < c.buffer.length
  · have hunread : c.reader.unread = c.buffer[c.position] :: c.buffer.drop (c.position + 1) :=
      List.drop_eq_getElem_cons hlt
    rw [hunread, List.getElem?_eq_getElem hlt]
    exact .ok ⟨rfl, rfl, Nat.le_succ _, hlt⟩
  · have hunread : c.reader.unread = [] := List.drop_eq_nil_of_le (Nat.not_lt.mp hlt)
    rw [hunread, List.getElem?_eq_none (Nat.not_lt.mp hlt)]
    exact .error (.refl h)

/-- Bytes that are left can be cut out. -/
theorem follows_slice {n : Nat} (h : c.InBounds) (hn : n ≤ c.reader.remaining) :
    Follows c (slice n c) (Read.take n c.reader) := by
  have hend : c.position + n ≤ c.buffer.length := by
    have h : c.position ≤ c.buffer.length := h
    rw [Cursor.remaining_reader] at hn
    omega
  have hreader : (⟨c.reader.unread.drop n, c.maxLength⟩ : Reader)
      = Cursor.reader { c with position := c.position + n } := by
    rw [Cursor.reader, Cursor.reader, List.drop_drop]
  rw [slice, if_pos hend, Read.take]
  exact hreader ▸ .ok ⟨rfl, rfl, Nat.le_add_right _ _, hend⟩

theorem mirrors_tag : Mirrors tag Read.tag := by
  refine mirrors_byte.bind fun b ↦ ?_
  dsimp only
  split
  · exact mirrors_report _
  · exact mirrors_pure _

theorem mirrors_longLength (count : Nat) : Mirrors (longLength count) (Read.longLength count) := by
  intro c h
  rw [longLength, Read.longLength, Read.bind_of_ok (Read.get_apply _)]
  by_cases hzero : count = 0
  · rw [if_pos hzero, if_pos hzero]
    exact mirrors_report _ h
  rw [if_neg hzero, if_neg hzero]
  by_cases hmany : 8 < count
  · rw [if_pos hmany, if_pos hmany, bind_of_ok (ceiling_apply c)]
    exact mirrors_report _ h
  rw [if_neg hmany, if_neg hmany, bind_of_ok (remaining_apply h)]
  by_cases hfew : c.reader.remaining < count
  · rw [if_pos hfew, if_pos hfew]
    exact mirrors_report _ h
  rw [if_neg hfew, if_neg hfew]
  refine (follows_slice h (Nat.not_lt.mp hfew)).bind fun digits c' htake h' ↦ ?_
  obtain ⟨hdigits, -⟩ := EStateM.Result.ok.inj htake
  -- At least one digit is counted, and all of them are there.
  obtain ⟨b, rest, hcons⟩ : ∃ b rest, digits = b :: rest := by
    apply List.exists_cons_of_length_pos
    rw [← hdigits, List.length_take_of_le (Nat.not_lt.mp hfew)]
    exact Nat.pos_of_ne_zero hzero
  have hfirst : first digits c' = .ok b c' := by
    rw [hcons]
    rfl
  rw [bind_of_ok hfirst, hcons, List.head?_cons]
  by_cases hleading : b = 0
  · rw [if_pos hleading, if_pos (.inl (congrArg some hleading))]
    exact mirrors_report _ h'.inBounds
  have hhead : some b ≠ some 0 := fun h ↦ hleading (Option.some.inj h)
  rw [if_neg hleading]
  by_cases hshort : (Integer.word (b :: rest)).toNat < 0x80
  · rw [if_pos hshort, if_pos (.inr hshort)]
    exact mirrors_report _ h'.inBounds
  · rw [if_neg hshort, if_neg (not_or.mpr ⟨hhead, hshort⟩)]
    exact mirrors_pure _ h'.inBounds

theorem mirrors_declaredLength : Mirrors declaredLength Read.declaredLength := by
  refine mirrors_byte.bind fun mark ↦ ?_
  split
  · exact mirrors_pure _
  · exact mirrors_longLength _

theorem mirrors_length : Mirrors length Read.length := by
  rw [Read.length_eq]
  refine mirrors_declaredLength.bind fun declared c h ↦ ?_
  rw [bind_of_ok (ceiling_apply c), Read.bind_of_ok (Read.get_apply _)]
  by_cases hmax : c.reader.maxLength.toNat < declared
  · rw [if_pos hmax, if_pos hmax]
    exact mirrors_report _ h
  rw [if_neg hmax, if_neg hmax, bind_of_ok (remaining_apply h)]
  split
  · exact mirrors_report _ h
  · exact mirrors_pure _ h

/-- The length that was read is no more than what is left, so the value can be cut out. -/
theorem mirrors_tlv : Mirrors tlv Read.tlv := by
  refine mirrors_tag.bind fun t c h ↦ ?_
  refine (mirrors_length h).bind fun n c' hn h' ↦ ?_
  have henough : n ≤ c'.reader.remaining := by
    obtain ⟨rest, -, -, henough, hreader⟩ := Read.length_eq_ok_iff.mp hn
    rw [hreader]
    exact henough
  refine (follows_slice h'.inBounds henough).bind fun value c'' _ h'' ↦ ?_
  exact mirrors_pure _ h''.inBounds

theorem mirrors_expect (t : Tag) : Mirrors (expect t) (Read.expect t) := by
  refine mirrors_tlv.bind fun p ↦ ?_
  obtain ⟨actual, value⟩ := p
  dsimp only
  split
  · exact mirrors_pure _
  · exact mirrors_report _

theorem mirrors_finish : Mirrors finish Read.finish := by
  intro c h
  rw [finish, Read.finish, bind_of_ok (remaining_apply h), Read.bind_of_ok (Read.get_apply _)]
  split
  · exact mirrors_pure _ h
  · exact mirrors_report _ h

end Scan

end Hashlock.Der
