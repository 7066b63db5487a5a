import Hashlock.Proofs.Fulfillment.Codec
import Mathlib.Control.Monad.Basic

/-!
# Encoding and decoding are inverse to each other

What decodes is the encoding of what it decodes to, and what is constructed comes back from its
encoding unless a limit is in the way. Both are read off `decode_eq_ok_iff`; what remains is to say
which limit is reported when there is one.

The outermost length is held against the ceiling before anything else is read, and no length inside
is larger. So the depth is all that can go wrong further in, and it goes wrong at the first node, in
the order of reading, that is nested too deeply: the members of a set in front of it are read.
-/

namespace Hashlock.Fulfillment

open Der Read

/-! ## Failures inside -/

section Failures

variable {maxDepth levels : Nat} {sub : Read Fulfillment} {r : Reader} {e : DecodeError}

theorem readNode_fails {sub? : Option (Read Fulfillment)} {f : Fulfillment} {rest : Bytes}
    (hunread : r.unread = f.encode ++ rest) (hmax : f.fields.length ≤ r.maxLength.toNat)
    (hfields : Fails (readFields maxDepth sub? f.kind) (r.nested f.fields) e) :
    Fails (readNode maxDepth sub?) r e :=
  typed_within_fails hunread hmax hfields

/-- A node that is longer than the ceiling is refused for its length. -/
theorem readNode_fails_of_lt {sub? : Option (Read Fulfillment)} {f : Fulfillment} {rest : Bytes}
    (hunread : r.unread = f.encode ++ rest) (hword : f.fields.length < UInt64.size)
    (hlarge : r.maxLength.toNat < f.fields.length) :
    Fails (readNode maxDepth sub?) r (.lengthTooLarge f.fields.length r.maxLength) :=
  ((tlv_fails_of_lt hunread f.kind.isLong_tag hword hlarge).bind _).bind _

/-- Where the nested fulfillment cannot be read, its prefix node cannot, either. -/
theorem readPrefixed_fails {p : Bytes} {max : UInt64} {g : Fulfillment} {c : Condition}
    (hunread : r.unread = (prefixed p max g c).fields)
    (hmax : r.unread.length ≤ r.maxLength.toNat)
    (hsub : Fails sub (r.nested g.encode) e) : Fails (readPrefixed sub) r e := by
  have hp := length_le_length_encodeTlv (.context 0) p
  have hword := length_le_length_encodeTlv (.context 1) (Integer.encodeUInt64 max)
  have hencode := length_le_length_encodeTlv (.contextConstructed 2) g.encode
  rw [fields_prefixed] at hunread
  rw [hunread, List.length_append, List.length_append] at hmax
  refine (exact_expect rfl).bind_fails hunread (by omega) ?_
  refine exact_word.bind_fails rfl (by rw [Reader.maxLength_nested]; omega) ?_
  refine (exact_expect rfl).bind_fails (List.append_nil _).symm ?_ ?_
  · simp only [Reader.maxLength_nested]
    omega
  · refine Fails.bind (Fails.within ?_) _
    exact hsub

/-- Where a member cannot be read and those in front of it can, its threshold node cannot be
read. -/
theorem readThreshold_fails {Fits : UInt64 → Fulfillment → Prop} (hsub : Exact sub encode Fits)
    {k : Nat} {before after : List Fulfillment} {g : Fulfillment} {conds : List Condition}
    {c : Condition} (hunread : r.unread = (threshold k (before ++ g :: after) conds c).fields)
    (hmax : r.unread.length ≤ r.maxLength.toNat)
    (hsorted : before.Pairwise fun a b ↦ Bytes.le a.encode b.encode = true)
    (hbefore : ∀ a ∈ before, Fits r.maxLength a)
    (hmember : ∀ rest, Fails sub (r.nested (g.encode ++ rest)) e) :
    Fails (readThreshold sub) r e := by
  have hset := length_le_length_encodeTlv (.contextConstructed 0)
    ((before ++ g :: after).flatMap encode)
  rw [fields_threshold] at hunread
  rw [hunread, List.length_append] at hmax
  refine (exact_expect rfl).bind_fails hunread (by omega) (Fails.bind (Fails.within ?_) _)
  have hsplit : (before ++ g :: after).flatMap encode
      = before.flatMap encode ++ (g.encode ++ after.flatMap encode) := by
    rw [List.flatMap_append, List.flatMap_cons]
  refine hsub.set_fails encode_ne_nil hsplit (fun h ↦ ?_) hbefore hsorted (hmember _)
  exact g.encode_ne_nil (List.append_eq_nil_iff.mp h).1

end Failures

/-! ## Depth -/

/-- The first member that does not have a property, and what stands around it. -/
theorem exists_first_not {α : Type} {P : α → Prop} [DecidablePred P] {as : List α}
    (h : ¬ ∀ a ∈ as, P a) :
    ∃ before a after, as = before ++ a :: after ∧ (∀ b ∈ before, P b) ∧ ¬ P a := by
  have hsome : ∃ a ∈ as, ¬ P a := by
    by_contra hnone
    exact h fun a ha ↦ Decidable.not_not.mp fun hP ↦ hnone ⟨a, ha, hP⟩
  obtain ⟨a, hfind⟩ := Option.isSome_iff_exists.mp
    (List.find?_isSome.mpr (hsome.imp fun a ⟨ha, hP⟩ ↦ ⟨ha, decide_eq_true hP⟩))
  obtain ⟨hP, before, after, rfl, hbefore⟩ := List.find?_eq_some_iff_append.mp hfind
  refine ⟨before, a, after, rfl, fun b hb ↦ ?_, of_decide_eq_true hP⟩
  have hb := hbefore b hb
  rw [Bool.not_eq_true', decide_eq_false_iff_not, Decidable.not_not] at hb
  exact hb

/-- What is nested too deeply is refused. -/
theorem read_fails_of_lt_depth {maxDepth levels : Nat} {f : Fulfillment} (hf : Constructible f)
    (hdepth : levels < f.depth) {r : Reader} {rest : Bytes} (hunread : r.unread = f.encode ++ rest)
    (hmax : f.fields.length ≤ r.maxLength.toNat) :
    Fails (read maxDepth levels) r (.depthExceeded maxDepth) := by
  induction levels generalizing f r rest with
  | zero =>
    refine readNode_fails hunread hmax ?_
    cases f with
    | prefixed => exact fails_throw _ _
    | threshold => exact fails_throw _ _
    | _ => exact absurd hdepth (Nat.lt_irrefl 0)
  | succ levels ih =>
    refine readNode_fails hunread hmax ?_
    cases f with
    | prefixed p max g c =>
      obtain ⟨hg, -⟩ := constructible_iff.mp hf
      have hgmax := Nat.le_trans (fields_length_le_prefixed p max g c) hmax
      have hsub := ih (r := r.nested g.encode) hg (Nat.lt_of_succ_lt_succ hdepth)
        (List.append_nil _).symm hgmax
      exact readPrefixed_fails (c := c) rfl hmax hsub
    | threshold k subs conds c =>
      obtain ⟨hsubs, -, hsorted, -, -⟩ := constructible_iff.mp hf
      have hdeep : ¬ ∀ g ∈ subs, g.depth ≤ levels := fun hall ↦
        Nat.not_lt.mpr (depthOfAll_le_iff.mpr hall) (Nat.lt_of_succ_lt_succ hdepth)
      have hgmax : ∀ g ∈ subs, g.fields.length ≤ r.maxLength.toNat := fun g hg ↦
        Nat.le_trans (fields_length_le_threshold hg k conds c) hmax
      -- The members in front of the first one that is too deep are read without failure.
      obtain ⟨before, g, after, rfl, hbefore, hg⟩ := exists_first_not hdeep
      have hmem : g ∈ before ++ g :: after := List.mem_append_right _ List.mem_cons_self
      refine readThreshold_fails (exact_read maxDepth levels) (k := k) (c := c) rfl hmax
        (List.pairwise_append.mp hsorted).1 (fun a ha ↦ ?_) fun rest ↦ ?_
      · have hmem := List.mem_append_left (g :: after) ha
        exact ⟨⟨hsubs a hmem, hbefore a ha⟩, hgmax a hmem⟩
      · exact ih (hsubs g hmem) (Nat.not_le.mp hg) rfl (hgmax g hmem)
    | _ => exact absurd hdepth (Nat.not_lt_zero _)

/-! ## Main results -/

/-- **Only the encoding of a fulfillment decodes to it.** -/
theorem canonical_of_decode {limits : Limits} {bs : Bytes} {f : Fulfillment}
    (h : decode limits bs = .ok f) :
    f.encode = bs ∧ ∀ limits' bs', decode limits' bs' = .ok f → bs' = bs := by
  obtain ⟨rfl, -⟩ := decode_eq_ok_iff.mp h
  refine ⟨rfl, fun limits' bs' h' ↦ ?_⟩
  exact (decode_eq_ok_iff.mp h').1

/-- A preimage behind a prefix, from its bytes. -/
theorem canonical_of_decode_prefixed :
    ∃ f, decode {} [0xa1, 13, 0x80, 1, 0x50, 0x81, 1, 8, 0xa2, 5, 0xa0, 3, 0x80, 1, 1] = .ok f
      ∧ f.encode = [0xa1, 13, 0x80, 1, 0x50, 0x81, 1, 8, 0xa2, 5, 0xa0, 3, 0x80, 1, 1]
      ∧ ∀ limits bs, decode limits bs = .ok f →
        bs = [0xa1, 13, 0x80, 1, 0x50, 0x81, 1, 8, 0xa2, 5, 0xa0, 3, 0x80, 1, 1] := by
  obtain ⟨f, h⟩ := Result.exists_eq_ok_of_isOk (by decide +kernel :
    (decode {} [0xa1, 13, 0x80, 1, 0x50, 0x81, 1, 8, 0xa2, 5, 0xa0, 3, 0x80, 1, 1]).isOk = true)
  exact ⟨f, h, canonical_of_decode h⟩

/-- **Decoding undoes encoding.** -/
theorem decode_encode_eq {f : Fulfillment} (hf : Constructible f)
    (hword : f.encode.length < UInt64.size) (limits : Limits) :
    decode limits f.encode =
      if limits.maxLength.toNat < f.fields.length then
        .error (.lengthTooLarge f.fields.length limits.maxLength)
      else if limits.maxDepth < f.depth then .error (.depthExceeded limits.maxDepth)
      else .ok f := by
  by_cases hmax : limits.maxLength.toNat < f.fields.length
  · rw [if_pos hmax]
    have hfields := Nat.lt_of_le_of_lt f.fields_length_le hword
    refine Fails.run ?_
    -- The limit for the depth only chooses among two layers.
    cases limits.maxDepth with
    | zero => exact readNode_fails_of_lt (List.append_nil _).symm hfields hmax
    | succ levels => exact readNode_fails_of_lt (List.append_nil _).symm hfields hmax
  rw [if_neg hmax]
  by_cases hdepth : limits.maxDepth < f.depth
  · rw [if_pos hdepth]
    exact Fails.run (read_fails_of_lt_depth hf hdepth (List.append_nil _).symm
      (Nat.not_lt.mp hmax))
  · rw [if_neg hdepth]
    exact decode_eq_ok_iff.mpr ⟨rfl, hf, Nat.not_lt.mp hdepth, Nat.not_lt.mp hmax⟩

/-- The three results, side by side. -/
theorem decode_encode_eq_sample : ∃ f, sample = .ok f ∧ Constructible f
    ∧ decode ⟨57, 2⟩ f.encode = .error (.lengthTooLarge 58 57)
    ∧ decode ⟨58, 1⟩ f.encode = .error (.depthExceeded 1) ∧ decode ⟨58, 2⟩ f.encode = .ok f := by
  obtain ⟨f, h, hf⟩ := exists_sample
  have hmeasures : sample.map (fun f ↦ (f.encode.length, f.fields.length, f.depth))
      = .ok (60, 58, 2) := by decide +kernel
  rw [h] at hmeasures
  obtain ⟨hencode, hfields, hdepth⟩ : f.encode.length = 60 ∧ f.fields.length = 58 ∧ f.depth = 2 := by
    simpa [Except.map] using hmeasures
  have hword : f.encode.length < UInt64.size := by rw [hencode]; decide
  refine ⟨f, h, hf, ?_, ?_, ?_⟩
  · rw [decode_encode_eq hf hword, hfields, hdepth]
    rfl
  · rw [decode_encode_eq hf hword, hfields, hdepth]
    rfl
  · rw [decode_encode_eq hf hword, hfields, hdepth]
    rfl

end Hashlock.Fulfillment
