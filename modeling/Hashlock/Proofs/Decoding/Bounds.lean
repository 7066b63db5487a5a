import Hashlock.Proofs.Der.Session
import Hashlock.Proofs.Fulfillment.Calls

/-!
# Decoding stays within its input

Bytes are taken from input in two places. A reader takes them from where it stands, whatever it was
asked before and however that ended (`Cursor.safe_iff`). The bookkeeping of a set cuts the members
out of the set once more, to compare them; what it relies on is a reader that others have moved.
Neither takes a byte that is not there (`decoding_in_bounds`).
-/

namespace Hashlock

namespace Der

open Read Scan

namespace Cursor

variable {c c' : Cursor}

/-- **A value that is refused takes the cursor ten bytes further at most.** -/
theorem InBounds.position_le_of_tlv (h : c.InBounds) {f : Fault} (htlv : Scan.tlv c = .error f c') :
    c'.position ≤ c.position + 10 := by
  have hfollows := mirrors_tlv h
  rw [htlv] at hfollows
  obtain ⟨e, -, hread, hforward⟩ := hfollows.of_error
  obtain ⟨-, taken, hlen, hunread⟩ := tlv_eq_error hread
  rw [(hforward.position_eq hunread).1]
  exact Nat.add_le_add_left hlen _

/-- **An unexpected tag takes the cursor behind its value.** -/
theorem InBounds.exists_value_of_expect (h : c.InBounds) {t expected actual : Tag}
    (hexpect : Scan.expect t c = .error (.reported (.unexpectedTag expected actual)) c') :
    expected = t ∧ actual ≠ t
      ∧ ∃ value, c'.position = c.position + (encodeTlv actual value).length
        ∧ (c.buffer.drop c.position).take (encodeTlv actual value).length
          = encodeTlv actual value := by
  have hfollows := mirrors_expect t h
  rw [hexpect] at hfollows
  obtain ⟨e, he, hread, hforward⟩ := hfollows.of_error
  obtain rfl := Fault.reported.inj he
  obtain ⟨hexpected, hactual, value, hunread⟩ := expect_eq_error_unexpectedTag hread
  obtain ⟨hposition, htaken⟩ := hforward.position_eq hunread
  rw [hposition, Nat.add_sub_cancel_left] at htaken
  exact ⟨hexpected, hactual, value, hposition, htaken⟩

/-- What can be relied on where a cursor stands: it is within its buffer, it does what a reader does
there, and it can be told how far it gets if a value is refused. -/
structure Safe (c : Cursor) : Prop where
  inBounds : c.position ≤ c.buffer.length
  follows : ∀ op : Operation, Follows c (op.scan c) (op.read c.reader)
  tlv_error : ∀ f c', Scan.tlv c = .error f c' → c'.position ≤ c.position + 10
  expect_error : ∀ t expected actual c',
    Scan.expect t c = .error (.reported (.unexpectedTag expected actual)) c' →
      expected = t ∧ actual ≠ t
        ∧ ∃ value, c'.position = c.position + (encodeTlv actual value).length
          ∧ (c.buffer.drop c.position).take (encodeTlv actual value).length
            = encodeTlv actual value

/-- A cursor needs nothing but a position within its buffer. -/
theorem safe_iff : c.Safe ↔ c.InBounds :=
  ⟨fun h ↦ h.inBounds, fun h ↦ ⟨h, fun op ↦ op.mirrors h, fun _ _ ↦ h.position_le_of_tlv,
    fun _ _ _ _ ↦ h.exists_value_of_expect⟩⟩

end Cursor

end Der

open Der

/-- **Nothing is taken from outside of the input.** No session that starts with one cursor has a
fault, and the cursors never have more left than they had before. The loops over the sets in a
fulfillment cut the members out between two places that are in order and within the set. -/
theorem decoding_in_bounds (buffer : Bytes) (max : UInt64)
    (actions more : List (Nat × Operation)) (maxDepth : Nat) :
    (∃ cs cs', Session.run [Cursor.start buffer max] actions = some cs
        ∧ Session.run cs more = some cs'
        ∧ (∀ c ∈ cs, c.Safe)
        ∧ cs.map Cursor.reader
          = actions.foldl (fun rs action ↦ Session.move rs action.1 action.2) [⟨buffer, max⟩]
        ∧ ∀ (i : Nat) (c : Cursor), cs[i]? = some c →
          ∃ c', cs'[i]? = some c' ∧ c.Forward c' ∧ c'.reader.remaining ≤ c.reader.remaining)
      ∧ Loop.Tracked Condition.read
      ∧ ∀ levels, Loop.Tracked (Fulfillment.read maxDepth levels) := by
  have hstart : Session.InBounds [Cursor.start buffer max] := by
    intro c hc
    obtain rfl := List.mem_singleton.mp hc
    exact Cursor.inBounds_start buffer max
  obtain ⟨cs, hrun, hreaches⟩ := Session.exists_run hstart actions
  obtain ⟨cs', hmore, hreaches'⟩ := Session.exists_run hreaches.inBounds more
  refine ⟨⟨cs, cs', hrun, hmore, fun c hc ↦ Cursor.safe_iff.mpr (hreaches.inBounds c hc),
    hreaches.map_reader, fun i c hc ↦ ?_⟩, ?_, fun levels ↦ ?_⟩
  · obtain ⟨c', hc', hforward⟩ := hreaches'.forward i c hc
    exact ⟨c', hc', hforward, hforward.remaining_le⟩
  · exact Loop.tracked_of_advances (Condition.advances_read.mono (by decide))
  · exact Loop.tracked_of_advances ((Fulfillment.advances_read maxDepth levels).mono (by decide))

/-- A cursor that has failed after four bytes is asked for more, and fails once more after the last
one. In a set of two members, the second one is cut out from its fifth byte to its end. -/
theorem decoding_in_bounds_half_read :
    ∃ (c c' d : Cursor) (o : SetOrder), c.position = 4 ∧ c'.position = 6 ∧ d.position = 3
      ∧ o.encoded = [0xa0, 2, 0x80, 0, 0xa0, 2, 0x80, 0] ∧ o.start = 4
      ∧ Session.run [Cursor.start [0xa0, 0x82, 0, 5, 0x1f, 0xa0] 100] [(0, .tlv)] = some [c]
      ∧ Session.run [c] [(0, .tag), (0, .nested [0x80, 1, 7, 0x30]), (1, .expect (.context 1)),
          (0, .tlv)] = some [c', d]
      ∧ c.Safe ∧ c.Forward c'
      ∧ o.start ≤ o.encoded.length - 0 ∧ ∃ o', o.advance 0 = some (.ok o') := by
  obtain ⟨⟨cs, cs', hrun, hmore, hsafe, -, hforward⟩, -, hset⟩ :=
    decoding_in_bounds [0xa0, 0x82, 0, 5, 0x1f, 0xa0] 100 [(0, .tlv)]
      [(0, .tag), (0, .nested [0x80, 1, 7, 0x30]), (1, .expect (.context 1)), (0, .tlv)] 16
  obtain rfl : cs = [⟨[0xa0, 0x82, 0, 5, 0x1f, 0xa0], 4, 100⟩] :=
    Option.some.inj (hrun.symm.trans rfl)
  obtain rfl : cs' = [⟨[0xa0, 0x82, 0, 5, 0x1f, 0xa0], 6, 100⟩, ⟨[0x80, 1, 7, 0x30], 3, 100⟩] :=
    Option.some.inj (hmore.symm.trans rfl)
  obtain ⟨c', hc', hmoved, -⟩ := hforward 0 _ rfl
  obtain rfl := Option.some.inj hc'
  -- The first member is read in one turn.
  have hturn : Loop.Turn (Fulfillment.read 16 16)
      (.start ⟨[0xa0, 2, 0x80, 0, 0xa0, 2, 0x80, 0], 100⟩) _ := .intro (by decide) rfl nofun
  have htracks := Loop.Tracks.turn .start hturn rfl
  obtain ⟨-, -, hstart, -⟩ := (hset 16).advance _ _ _ htracks (by decide) _ _ rfl
  exact ⟨_, _, _, _, rfl, rfl, rfl, rfl, rfl, hrun, hmore, hsafe _ (.head _), hmoved, hstart, _, rfl⟩

end Hashlock
