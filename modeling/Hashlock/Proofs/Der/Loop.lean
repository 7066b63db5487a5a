import Hashlock.Proofs.Der.Read
import Mathlib.Logic.Relation

/-!
# The loop over a set

The members of a set are read one after the other until nothing is left. Here the loop is taken
apart into its turns: `Loop.Turn` is a turn that does not fail, and `Loop.Ends` tells how the loop
ends where it stands. Neither knows of a bound on the number of turns.

Reading a set does have one, the number of unread bytes, and it is never what ends the loop: if
every member takes a byte, reading the set is to take turns until the loop ends of itself
(`exists_ends`). How many bytes a turn takes is told by how many a member takes at least
(`Turn.remaining_add_le`).

## Bookkeeping

The encoding of a member can be cut out of the set by two places, where the member starts and where
it ends. The start is kept from one turn to the next; the end is counted from the bytes that the
reader has left, which is another object than the set. `SetOrder` is that bookkeeping, and the
invariant that ties it to the loop is that the start and what is left make up the set
(`Loop.Turns.drop_eq`). So it never asks for bytes that are not there, and it finds the encodings
that the loop compares (`Loop.tracked_of_advances`).
-/

namespace Hashlock.Der

open Read

variable {α : Type} {m : Read α} {r r' : Reader} {k : Nat}

namespace Read

/-! ## Taking bytes off the front -/

/-- Where `m` succeeds, it takes at least `k` bytes off the front and leaves the others. -/
def Advances (m : Read α) (k : Nat) : Prop :=
  ∀ ⦃r r' : Reader⦄ ⦃a : α⦄, m r = .ok a r' →
    ∃ taken, k ≤ taken.length ∧ r.unread = taken ++ r'.unread ∧ r' = r.nested r'.unread

theorem Exact.advances {encode : α → Bytes} {Fits : UInt64 → α → Prop} (hm : Exact m encode Fits)
    (hk : ∀ a, k ≤ (encode a).length) : Advances m k := by
  intro r r' a h
  obtain ⟨rest, hunread, -, rfl⟩ := hm.eq_ok_iff.mp h
  exact ⟨encode a, hk a, hunread, rfl⟩

theorem Advances.mono {j : Nat} (hm : Advances m k) (hjk : j ≤ k) : Advances m j := by
  intro r r' a h
  obtain ⟨taken, hk, hunread, hr'⟩ := hm h
  exact ⟨taken, Nat.le_trans hjk hk, hunread, hr'⟩

theorem Advances.remaining_add_le (hm : Advances m k) {a : α} (h : m r = .ok a r') :
    r'.remaining + k ≤ r.remaining := by
  obtain ⟨taken, hk, hunread, -⟩ := hm h
  rw [Reader.remaining, Reader.remaining, hunread, List.length_append]
  omega

end Read

/-! ## Turns -/

/-- Where the loop over a set stands. -/
structure Loop (α : Type) where
  /-- The encoding of the member that was read last. -/
  previous : Option Bytes
  /-- The members read so far, the last one first. -/
  members : List α
  /-- What is left of the set. -/
  reader : Reader

namespace Loop

variable {s s' : Loop α}

/-- The loop before its first turn. -/
def start (r : Reader) : Loop α := ⟨none, [], r⟩

/-- A turn that does not fail: a member is read, and it may stand behind the one before it. -/
inductive Turn (m : Read α) (s : Loop α) : Loop α → Prop
  | intro {a : α} {encoded : Bytes} {r' : Reader} (hopen : s.reader.unread ≠ [])
      (hread : withConsumed m s.reader = .ok (a, encoded) r')
      (hle : ∀ p ∈ s.previous, Bytes.le p encoded = true) :
      Turn m s ⟨some encoded, a :: s.members, r'⟩

/-- How the loop ends where it stands: nothing is left, or a member cannot be read, or it may not
stand behind the one before it. -/
inductive Ends (m : Read α) (s : Loop α) : EStateM.Result DecodeError Reader (List α) → Prop
  | done (hdone : s.reader.unread = []) : Ends m s (.ok s.members.reverse s.reader)
  | failed {e : DecodeError} {r' : Reader} (hopen : s.reader.unread ≠ [])
      (hread : m s.reader = .error e r') : Ends m s (.error e r')
  | disordered {a : α} {encoded : Bytes} {r' : Reader} (hopen : s.reader.unread ≠ [])
      (hread : withConsumed m s.reader = .ok (a, encoded) r')
      (hgt : ¬ ∀ p ∈ s.previous, Bytes.le p encoded = true) :
      Ends m s (.error .nonCanonicalSetOrder r')

/-- Some turns, one after the other. -/
abbrev Turns (m : Read α) : Loop α → Loop α → Prop := Relation.ReflTransGen (Turn m)

theorem Turn.advances (hm : Advances m k) (h : Turn m s s') :
    ∃ taken, k ≤ taken.length ∧ s.reader.unread = taken ++ s'.reader.unread
      ∧ s'.reader = s.reader.nested s'.reader.unread := by
  obtain ⟨-, hread, -⟩ := h
  exact hm (withConsumed_eq_ok_iff.mp hread).1

theorem Turn.remaining_add_le (hm : Advances m k) (h : Turn m s s') :
    s'.reader.remaining + k ≤ s.reader.remaining := by
  obtain ⟨-, hread, -⟩ := h
  exact hm.remaining_add_le (withConsumed_eq_ok_iff.mp hread).1

/-- What is left after some turns is the end of what there was. -/
theorem Turns.suffix (hm : Advances m k) (h : Turns m s s') :
    s'.reader.unread <:+ s.reader.unread ∧ s'.reader = s.reader.nested s'.reader.unread := by
  induction h with
  | refl => exact ⟨List.suffix_refl _, rfl⟩
  | tail _ hturn ih =>
    obtain ⟨taken, -, hunread, hreader⟩ := hturn.advances hm
    refine ⟨List.IsSuffix.trans ⟨taken, hunread.symm⟩ ih.1, ?_⟩
    rw [hreader, ih.2]
    rfl

/-- The fuel does not end the loop: there are turns to where it ends of itself, and with what is
read. -/
theorem exists_ends (hm : Advances m 1) {fuel : Nat} (hfuel : s.reader.remaining ≤ fuel) :
    ∃ s', Turns m s s'
      ∧ Ends m s' (sortedMembers m fuel s.previous s.members s.reader) := by
  -- Each turn takes a byte of what is left, so the fuel still covers the rest.
  induction fuel generalizing s with
  | zero =>
    have hnil : s.reader.unread = [] := List.eq_nil_of_length_eq_zero (Nat.le_zero.mp hfuel)
    rw [sortedMembers_of_empty hnil]
    exact ⟨s, .refl, .done hnil⟩
  | succ fuel ih =>
    by_cases hnil : s.reader.unread = []
    · rw [sortedMembers_of_empty hnil]
      exact ⟨s, .refl, .done hnil⟩
    rw [sortedMembers_of_open hnil]
    cases hread : m s.reader with
    | error e r' => exact ⟨s, .refl, .failed hnil hread⟩
    | ok a r' =>
      have hmember := withConsumed_of_ok hread
      dsimp only
      split
      · rename_i hgt
        exact ⟨s, .refl, .disordered hnil hmember fun hle ↦ previous_le_iff.mpr hle hgt⟩
      · rename_i hle
        have hturn := Turn.intro hnil hmember (previous_le_iff.mp hle)
        have hrest := hturn.remaining_add_le hm
        obtain ⟨s', hturns, hends⟩ := ih (Nat.le_of_succ_le_succ (Nat.le_trans hrest hfuel))
        exact ⟨s', hturns.head hturn, hends⟩

/-- **A set is read by turns until the loop ends of itself.** -/
theorem exists_ends_set (hm : Advances m 1) (r : Reader) :
    ∃ s, Turns m (start r) s ∧ Ends m s (Read.set m r) := by
  have hset : Read.set m r = sortedMembers m r.remaining none [] r := by
    rw [Read.set, bind_of_ok (get_apply r)]
  rw [hset]
  exact exists_ends (s := start r) hm (Nat.le_refl _)

/-- Reading a set consults the reader for its members at the turns of the loop only. -/
theorem set_congr {m' : Read α}
    (h : ∀ s, Turns m (start r) s → s.reader.unread ≠ [] → m' s.reader = m s.reader) :
    Read.set m' r = Read.set m r := by
  have hloop (fuel : Nat) : ∀ s, Turns m (start r) s →
      sortedMembers m' fuel s.previous s.members s.reader
        = sortedMembers m fuel s.previous s.members s.reader := by
    induction fuel with
    | zero => exact fun _ _ ↦ rfl
    | succ fuel ih =>
      intro s hs
      by_cases hnil : s.reader.unread = []
      · rw [sortedMembers_of_empty hnil, sortedMembers_of_empty hnil]
      rw [sortedMembers_of_open hnil, sortedMembers_of_open hnil, h s hs hnil]
      cases hread : m s.reader with
      | error e r' => rfl
      | ok a r' =>
        dsimp only
        split
        · rfl
        · rename_i hle
          exact ih _ (hs.tail (.intro hnil (withConsumed_of_ok hread) (previous_le_iff.mp hle)))
  rw [Read.set, Read.set, bind_of_ok (get_apply r), bind_of_ok (get_apply r)]
  exact hloop _ (start r) .refl

/-- Reading a set of what `m` reads comes to an end: the loop ends of itself, and a turn that does
not fail takes two bytes at least. -/
structure Terminates (m : Read α) : Prop where
  exists_ends : ∀ r, ∃ s, Turns m (start r) s ∧ Ends m s (Read.set m r)
  remaining_add_two_le : ∀ s s', Turn m s s' → s'.reader.remaining + 2 ≤ s.reader.remaining

theorem terminates_of_advances (hm : Advances m 2) : Terminates m :=
  ⟨exists_ends_set (hm.mono (by decide)), fun _ _ ↦ Turn.remaining_add_le hm⟩

end Loop

/-! ## Bookkeeping -/

/-- What is kept of a set from one member to the next. -/
structure SetOrder where
  /-- All bytes of the set. -/
  encoded : Bytes
  /-- The place where the next member starts. -/
  start : Nat
  /-- The encoding of the member in front of it. -/
  previous : Option Bytes

/-- Nothing has been read of a set. -/
def SetOrder.ofSet (encoded : Bytes) : SetOrder := ⟨encoded, 0, none⟩

/-- Record the member that ends where `remaining` bytes of the set are left. Nothing comes of it if
the member cannot be cut out of the set. -/
def SetOrder.advance (o : SetOrder) (remaining : Nat) : Option (Except DecodeError SetOrder) :=
  let place := o.encoded.length - remaining
  if remaining ≤ o.encoded.length ∧ o.start ≤ place then
    let member := (o.encoded.take place).drop o.start
    if o.previous.any fun p ↦ Bytes.compare p member = .gt then
      some (.error .nonCanonicalSetOrder)
    else some (.ok ⟨o.encoded, place, some member⟩)
  else none

namespace Loop

/-- The bookkeeping along some turns of the loop over what is unread at `r`. -/
inductive Tracks (m : Read α) (r : Reader) : SetOrder → Loop α → Prop
  | start : Tracks m r (.ofSet r.unread) (start r)
  | turn {o o' : SetOrder} {s s' : Loop α} (h : Tracks m r o s) (hturn : Turn m s s')
      (hadvance : o.advance s'.reader.remaining = some (.ok o')) : Tracks m r o' s'

/-- What is kept where the loop stands. -/
def order (r : Reader) (s : Loop α) : SetOrder :=
  ⟨r.unread, r.remaining - s.reader.remaining, s.previous⟩

variable {s s' : Loop α}

/-- The place where the next member starts and what the reader has left make up the set. -/
theorem Turns.drop_eq (hm : Advances m k) (h : Turns m (start r) s) :
    s.reader.remaining ≤ r.remaining
      ∧ r.unread.drop (r.remaining - s.reader.remaining) = s.reader.unread := by
  have hsuffix := (h.suffix hm).1
  exact ⟨hsuffix.length_le, (List.suffix_iff_eq_drop.mp hsuffix).symm⟩

/-- What is recorded is the encoding that was read, and it is found within the set. -/
theorem advance_order (hm : Advances m k) (h : Turns m (start r) s) {a : α}
    (hread : m s.reader = .ok a r') :
    let encoded := s.reader.unread.take (s.reader.remaining - r'.remaining)
    r'.remaining ≤ r.remaining ∧ (s.order r).start ≤ r.remaining - r'.remaining
      ∧ (s.order r).advance r'.remaining
        = if s.previous.any fun p ↦ Bytes.compare p encoded = .gt then
            some (.error .nonCanonicalSetOrder)
          else some (.ok (order r ⟨some encoded, a :: s.members, r'⟩)) := by
  obtain ⟨hle, hdrop⟩ := h.drop_eq hm
  have hleft := hm.remaining_add_le hread
  have hset : r'.remaining ≤ r.remaining := by omega
  have hstart : r.remaining - s.reader.remaining ≤ r.remaining - r'.remaining := by omega
  have hmember : (r.unread.take (r.remaining - r'.remaining)).drop
        (r.remaining - s.reader.remaining)
      = s.reader.unread.take (s.reader.remaining - r'.remaining) := by
    have hlen : r.remaining - r'.remaining - (r.remaining - s.reader.remaining)
        = s.reader.remaining - r'.remaining := by omega
    rw [List.drop_take, hdrop, hlen]
  refine ⟨hset, hstart, ?_⟩
  rw [SetOrder.advance, order, ← Reader.remaining, if_pos ⟨hset, hstart⟩]
  dsimp only
  rw [hmember]
  rfl

theorem Tracks.turns {o : SetOrder} (h : Tracks m r o s) : Turns m (Loop.start r) s := by
  induction h with
  | start => exact .refl
  | turn _ hturn _ ih => exact ih.tail hturn

theorem Turn.advance_order (hm : Advances m k) (h : Turns m (start r) s) (hturn : Turn m s s') :
    (s.order r).advance s'.reader.remaining = some (.ok (s'.order r)) := by
  obtain ⟨-, hmember, hle⟩ := hturn
  obtain ⟨hread, rfl⟩ := withConsumed_eq_ok_iff.mp hmember
  rw [(Loop.advance_order hm h hread).2.2, if_neg (previous_le_iff.mpr hle)]

/-- All that is kept can be told from where the loop stands. -/
theorem tracks_iff (hm : Advances m k) {o : SetOrder} :
    Tracks m r o s ↔ Turns m (start r) s ∧ o = s.order r := by
  have hstart : order r (start (α := α) r) = .ofSet r.unread := by
    rw [order, start, Nat.sub_self]
    rfl
  constructor
  · intro h
    refine ⟨h.turns, ?_⟩
    induction h with
    | start => exact hstart.symm
    | turn h hturn hadvance ih =>
      rw [ih, hturn.advance_order hm h.turns] at hadvance
      exact (Except.ok.inj (Option.some.inj hadvance)).symm
  · rintro ⟨h, rfl⟩
    induction h with
    | refl => exact hstart ▸ .start
    | tail h hturn ih => exact ih.turn hturn (hturn.advance_order hm h)

/-- The bookkeeping stays within a set of what `m` reads: it goes along with the loop to its end,
a member that was read can be cut out of the set, and what is recorded of it decides how the loop
goes on. -/
structure Tracked (m : Read α) : Prop where
  exists_tracks : ∀ r s, Turns m (start r) s → ∃ o, Tracks m r o s
  exists_ends : ∀ r, ∃ s o, Tracks m r o s ∧ Ends m s (Read.set m r)
  advance : ∀ r o s, Tracks m r o s → s.reader.unread ≠ [] → ∀ a r', m s.reader = .ok a r' →
    o.encoded = r.unread ∧ r'.remaining ≤ o.encoded.length
      ∧ o.start ≤ o.encoded.length - r'.remaining
      ∧ ((∃ o', o.advance r'.remaining = some (.ok o')
            ∧ Tracks m r o' ⟨o'.previous, a :: s.members, r'⟩)
          ∨ o.advance r'.remaining = some (.error .nonCanonicalSetOrder)
            ∧ Ends m s (.error .nonCanonicalSetOrder r'))

/-- **Members are cut out within the set.** The place where a member ends is counted from what its
reader has left, and the reader is another object than the set; both move in step. -/
theorem tracked_of_advances (hm : Advances m 1) : Tracked m where
  exists_tracks r s h := ⟨s.order r, (tracks_iff hm).mpr ⟨h, rfl⟩⟩
  exists_ends r := by
    obtain ⟨s, h, hends⟩ := exists_ends_set hm r
    exact ⟨s, s.order r, (tracks_iff hm).mpr ⟨h, rfl⟩, hends⟩
  advance r o s h hopen a r' hread := by
    obtain ⟨hturns, rfl⟩ := (tracks_iff hm).mp h
    obtain ⟨hset, hstart, hadvance⟩ := advance_order hm hturns hread
    refine ⟨rfl, hset, hstart, ?_⟩
    have hmember := withConsumed_of_ok hread
    split at hadvance
    · rename_i hgt
      have hgt := fun hle ↦ previous_le_iff.mpr hle hgt
      exact .inr ⟨hadvance, .disordered hopen hmember hgt⟩
    · rename_i hle
      have hturn := Turn.intro hopen hmember (previous_le_iff.mp hle)
      exact .inl ⟨_, hadvance, h.turn hturn hadvance⟩

end Loop

end Hashlock.Der
