import Hashlock.Proofs.Der.Truncation
import Hashlock.Proofs.Fulfillment.Codec

/-!
# Encodings delimit themselves

What decodes is one value under a tag, and its header says where it ends. A decoder therefore takes
neither less nor more: of input that ends earlier it misses what is missing, and of input that goes
on it refuses what is left, byte for byte (`decode_delimits`).

Nothing of this depends on what is inside. With a part of the value the header is all that is ever
looked at; with more than the value, the value is cut off first and read as it would be alone. The
sets inside, which are read until nothing is left, never come to see the bytes that are too many.
-/

namespace Hashlock

open Der Read

variable {α : Type}

/-- A decoder knows the end of some bytes, a value of length `n` and its header: it misses what is
cut off, and it refuses what is added. -/
structure Delimits (decode : Bytes → Except DecodeError α) (n : Nat) (b : Bytes) : Prop where
  cut : ∀ p, p <+: b → p ≠ b → decode p = .error (cutError n p.length)
  padded : ∀ x, x ≠ [] → decode (b ++ x) = .error (.trailingBytes x.length)

/-! ## Any value under the tag of a kind -/

namespace Der.Read

variable {m : Read α} {encode : α → Bytes} {Fits : UInt64 → α → Prop} {max : UInt64} {a : α}

/-- What follows an encoding that is read exactly is left over. -/
theorem Exact.run_append (hm : Exact m encode Fits) (ha : Fits max a) {x : Bytes} (hx : x ≠ []) :
    run m max (encode a ++ x) = .error (.trailingBytes x.length) := by
  have hread : m ⟨encode a ++ x, max⟩ = .ok a ⟨x, max⟩ := hm.eq_ok_iff.mpr ⟨x, rfl, ha, rfl⟩
  obtain ⟨r, hfinish⟩ : Fails finish ⟨x, max⟩ (.trailingBytes x.length) := fails_finish hx
  rw [run, complete, bind_of_ok hread, bind_apply, hfinish]

/-- A decoder that takes one value under the tag of a kind delimits what it accepts. -/
theorem Exact.delimits {node : Kind × Bytes → Read α} (hm : Exact (typed >>= node) encode Fits)
    {kind : Kind} {fields : Bytes} (hencode : encode a = encodeTlv kind.tag fields)
    (hmax : fields.length ≤ max.toNat) (ha : Fits max a) :
    Delimits (run (typed >>= node) max) fields.length (encode a) := by
  refine ⟨fun p hcut hne ↦ ?_, fun x hx ↦ hm.run_append ha hx⟩
  rw [hencode] at hcut hne
  apply Fails.run
  exact ((tlv_fails_of_cut kind.isLong_tag hmax hcut hne).bind _).bind _

end Der.Read

/-! ## Conditions and fulfillments -/

theorem Condition.delimits_of_decode {limits : Limits} {b : Bytes} {c : Condition}
    (h : decode limits b = .ok c) : Delimits (decode limits) c.fields.length b := by
  obtain ⟨rfl, hmax⟩ := decode_eq_ok_iff.mp h
  exact exact_read.delimits rfl hmax hmax

namespace Fulfillment

/-- However many levels there may be, the outermost one is a value under the tag of a kind. -/
theorem exists_read_eq (maxDepth levels : Nat) : ∃ node, read maxDepth levels = typed >>= node := by
  cases levels with
  | zero => exact ⟨_, rfl⟩
  | succ levels => exact ⟨_, rfl⟩

theorem delimits_of_decode {limits : Limits} {b : Bytes} {f : Fulfillment}
    (h : decode limits b = .ok f) : Delimits (decode limits) f.fields.length b := by
  obtain ⟨rfl, hf, hdepth, hmax⟩ := decode_eq_ok_iff.mp h
  obtain ⟨node, hnode⟩ := exists_read_eq limits.maxDepth limits.maxDepth
  have hread := exact_read limits.maxDepth limits.maxDepth
  have hdecode : decode limits = run (typed >>= node) limits.maxLength := by
    funext b
    rw [decode, hnode]
  rw [hnode] at hread
  rw [hdecode]
  exact hread.delimits rfl hmax ⟨⟨hf, hdepth⟩, hmax⟩

end Fulfillment

/-! ## Main result -/

/-- **Truncation and padding are always caught**, at every place and with the error that says what
is missing or left over. -/
theorem decode_delimits (limits : Limits) (b : Bytes) :
    (∀ f, Fulfillment.decode limits b = .ok f →
        Delimits (Fulfillment.decode limits) f.fields.length b)
      ∧ ∀ c, Condition.decode limits b = .ok c →
        Delimits (Condition.decode limits) c.fields.length b :=
  ⟨fun _ ↦ Fulfillment.delimits_of_decode, fun _ ↦ Condition.delimits_of_decode⟩

/-- A preimage of 200 bytes, whose length takes two bytes, and the condition of an empty one. -/
theorem decode_delimits_preimage :
    ∃ (f : Fulfillment) (c : Condition), f = .ofPreimage (List.replicate 200 0) ∧ c = .ofPreimage []
      ∧ Fulfillment.decode {} f.encode = .ok f ∧ Condition.decode {} c.encode = .ok c
      ∧ Fulfillment.decode {} (f.encode.take 2) = .error .unexpectedEof
      ∧ Fulfillment.decode {} (f.encode.take 103) = .error (.lengthExceedsInput 203 100)
      ∧ Fulfillment.decode {} (f.encode ++ [0, 0]) = .error (.trailingBytes 2)
      ∧ Condition.decode {} (c.encode.take 38) = .error (.lengthExceedsInput 37 36)
      ∧ Condition.decode {} (c.encode ++ c.encode) = .error (.trailingBytes 39) := by
  refine ⟨_, _, rfl, rfl, ?_⟩
  have hf : Fulfillment.decode {} (Fulfillment.ofPreimage (List.replicate 200 0)).encode
      = .ok (.ofPreimage (List.replicate 200 0)) :=
    Fulfillment.decode_eq_ok_iff.mpr ⟨rfl, .ofPreimage _, by decide, by decide +kernel⟩
  have hc : Condition.decode {} (Condition.ofPreimage []).encode = .ok (.ofPreimage []) :=
    Condition.decode_eq_ok_iff.mpr ⟨rfl, by decide +kernel⟩
  have hfdelimits := (decode_delimits {} _).1 _ hf
  have hcdelimits := (decode_delimits {} _).2 _ hc
  refine ⟨hf, hc, ?_, ?_, ?_, ?_, ?_⟩
  · rw [hfdelimits.cut _ (List.take_prefix _ _) (by decide +kernel)]
    decide +kernel
  · rw [hfdelimits.cut _ (List.take_prefix _ _) (by decide +kernel)]
    decide +kernel
  · exact hfdelimits.padded [0, 0] (by decide)
  · rw [hcdelimits.cut _ (List.take_prefix _ _) (by decide +kernel)]
    decide +kernel
  · rw [hcdelimits.padded _ (Condition.encode_ne_nil _)]
    decide +kernel

end Hashlock
