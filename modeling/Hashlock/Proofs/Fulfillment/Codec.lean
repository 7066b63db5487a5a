import Hashlock.Fulfillment.Decoding
import Hashlock.Proofs.Condition.Codec
import Hashlock.Proofs.Fulfillment.Constructible

/-!
# Reading fulfillments

The decoder of fulfillments accepts the encodings of constructible fulfillments whose content is
under the ceiling and whose compound nodes are not nested too deeply, and nothing else
(`Fulfillment.exact_read`).

The reader is a tower of layers, one for each level of nesting that is left, and the proof climbs
it: if the reader for the children is exact, so is that for the node. The levels only count compound
nodes, so the leaves are exact on every layer.
-/

namespace Hashlock.Fulfillment

open Der Read

/-! ## Depth -/

mutual

/-- The largest number of compound nodes on a path from the root to a leaf. -/
def depth : Fulfillment → Nat
  | prefixed _ _ sub _ => depth sub + 1
  | threshold _ subs _ _ => depthOfAll subs + 1
  | preimage .. | rsa .. | ed25519 .. => 0

/-- The largest depth among some fulfillments. -/
def depthOfAll : List Fulfillment → Nat
  | [] => 0
  | f :: fs => max (depth f) (depthOfAll fs)

end

theorem depthOfAll_le_iff {fs : List Fulfillment} {n : Nat} :
    depthOfAll fs ≤ n ↔ ∀ f ∈ fs, depth f ≤ n := by
  induction fs with
  | nil => exact ⟨fun _ _ hf ↦ absurd hf List.not_mem_nil, fun _ ↦ Nat.zero_le n⟩
  | cons f fs ih => rw [depthOfAll, Nat.max_le, ih, List.forall_mem_cons]

/-- What is read where `levels` compound nodes may still be nested in one another. -/
def Admissible (levels : Nat) (f : Fulfillment) : Prop := Constructible f ∧ f.depth ≤ levels

/-! ## Fields -/

theorem fields_prefixed (p : Bytes) (max : UInt64) (sub : Fulfillment) (c : Condition) :
    (prefixed p max sub c).fields = encodeTlv (.context 0) p
      ++ (encodeTlv (.context 1) (Integer.encodeUInt64 max)
        ++ encodeTlv (.contextConstructed 2) sub.encode) := by
  rw [fields, List.append_assoc]
  rfl

theorem fields_threshold (k : Nat) (subs : List Fulfillment) (conds : List Condition)
    (c : Condition) :
    (threshold k subs conds c).fields = encodeTlv (.contextConstructed 0) (subs.flatMap encode)
      ++ encodeTlv (.contextConstructed 1) (conds.flatMap Condition.encode) := by
  rw [fields, encodeAll_eq_flatMap]

theorem encode_ne_nil (f : Fulfillment) : f.encode ≠ [] := encodeTlv_ne_nil _ _

theorem fields_length_le (f : Fulfillment) : f.fields.length ≤ f.encode.length :=
  length_le_length_encodeTlv _ _

/-! A child is no longer than its parent, so a ceiling that lets the parent through is not in the
way of its children. -/

theorem fields_length_le_prefixed (p : Bytes) (max : UInt64) (sub : Fulfillment) (c : Condition) :
    sub.fields.length ≤ (prefixed p max sub c).fields.length := by
  have hencode := length_le_length_encodeTlv (.contextConstructed 2) sub.encode
  have hfields := fields_length_le sub
  rw [fields_prefixed, List.length_append, List.length_append]
  omega

theorem fields_length_le_threshold {sub : Fulfillment} {subs : List Fulfillment} (h : sub ∈ subs)
    (k : Nat) (conds : List Condition) (c : Condition) :
    sub.fields.length ≤ (threshold k subs conds c).fields.length := by
  have hset := length_le_length_encodeTlv (.contextConstructed 0) (subs.flatMap encode)
  have hmember := length_le_length_flatMap encode h
  have hfields := fields_length_le sub
  rw [fields_threshold, List.length_append]
  omega

/-! ## Leaves -/

theorem modulusField_eq_ok_iff {content modulus : Bytes} :
    modulusField content = .ok modulus ↔ content = modulus ∧ modulus.head? ≠ some 0 := by
  rw [modulusField]
  constructor
  · intro h
    split at h
    · exact absurd h nofun
    · rename_i hhead
      obtain rfl := Except.ok.inj h
      exact ⟨rfl, hhead⟩
  · rintro ⟨rfl, hhead⟩
    exact if_neg hhead

theorem exact_modulus :
    Exact (field (.context 0) modulusField) (encodeTlv (.context 0))
      (fun max modulus ↦ modulus.length ≤ max.toNat ∧ modulus.head? ≠ some 0) := by
  refine ⟨fun {r r' modulus} ↦ ?_⟩
  rw [field_eq_ok_iff rfl]
  constructor
  · rintro ⟨content, rest, hunread, hmax, h, rfl⟩
    obtain ⟨rfl, hhead⟩ := modulusField_eq_ok_iff.mp h
    exact ⟨rest, hunread, ⟨hmax, hhead⟩, rfl⟩
  · rintro ⟨rest, hunread, ⟨hmax, hhead⟩, rfl⟩
    exact ⟨modulus, rest, hunread, hmax, modulusField_eq_ok_iff.mpr ⟨rfl, hhead⟩, rfl⟩

section Leaves

variable {levels : Nat} {r : Reader} {f : Fulfillment}
  (hmax : r.unread.length ≤ r.maxLength.toNat)

include hmax

theorem readPreimage_fills_iff :
    Fills readPreimage r f ↔ f.kind = .preimage ∧ Admissible levels f ∧ r.unread = f.fields := by
  rw [readPreimage, (exact_expect rfl).bind_fills_iff]
  constructor
  · rintro ⟨p, rest, hunread, -, h⟩
    obtain ⟨rfl, rfl⟩ := pure_fills_iff.mp h
    exact ⟨rfl, ⟨.ofPreimage p, Nat.zero_le _⟩, hunread.trans (List.append_nil _)⟩
  · rintro ⟨hkind, ⟨hf, -⟩, hunread⟩
    cases f with
    | preimage p c =>
      obtain rfl : c = _ := constructible_iff.mp hf
      have hp := length_le_length_encodeTlv (.context 0) p
      rw [hunread, fields] at hmax
      refine ⟨p, [], ?_, Nat.le_trans hp hmax, pure_fills_iff.mpr ⟨rfl, rfl⟩⟩
      rw [hunread, List.append_nil, fields]
    | _ => exact absurd hkind nofun

theorem readRsa_fills_iff :
    Fills readRsa r f ↔ f.kind = .rsa ∧ Admissible levels f ∧ r.unread = f.fields := by
  rw [readRsa, exact_modulus.bind_fills_iff]
  constructor
  · rintro ⟨modulus, rest, hunread, ⟨-, hhead⟩, h⟩
    obtain ⟨signature, rfl, -, h⟩ := (exact_expect rfl).bind_construct_fills_iff.mp h
    obtain ⟨c, hc, hlen, rfl⟩ := (ofRsa_eq_ok_iff_of_head? hhead).mp h
    exact ⟨rfl, ⟨constructible_iff.mpr ⟨hhead, hlen, hc⟩, Nat.zero_le _⟩, hunread⟩
  · rintro ⟨hkind, ⟨hf, -⟩, hunread⟩
    cases f with
    | rsa modulus signature c =>
      obtain ⟨hhead, hlen, hc⟩ := constructible_iff.mp hf
      have hmodulus := length_le_length_encodeTlv (.context 0) modulus
      have hsignature := length_le_length_encodeTlv (.context 1) signature
      rw [hunread, fields, List.length_append] at hmax
      refine ⟨modulus, encodeTlv (.context 1) signature, hunread, ⟨by omega, hhead⟩, ?_⟩
      have hnode := (ofRsa_eq_ok_iff_of_head? hhead).mpr ⟨c, hc, hlen, rfl⟩
      exact (exact_expect rfl).bind_construct_fills_iff.mpr
        ⟨signature, rfl, by rw [Reader.maxLength_nested]; omega, hnode⟩
    | _ => exact absurd hkind nofun

theorem readEd25519_fills_iff :
    Fills readEd25519 r f ↔ f.kind = .ed25519 ∧ Admissible levels f ∧ r.unread = f.fields := by
  rw [readEd25519, (exact_expect rfl).bind_fills_iff]
  constructor
  · rintro ⟨key, rest, hunread, -, h⟩
    obtain ⟨signature, rfl, -, h⟩ := (exact_expect rfl).bind_construct_fills_iff.mp h
    obtain ⟨key, signature, rfl, rfl, rfl⟩ := ofEd25519Bytes_eq_ok_iff.mp h
    exact ⟨rfl, ⟨.ofEd25519 key signature, Nat.zero_le _⟩, hunread⟩
  · rintro ⟨hkind, ⟨hf, -⟩, hunread⟩
    cases f with
    | ed25519 key signature c =>
      obtain rfl : c = _ := constructible_iff.mp hf
      have hkey := length_le_length_encodeTlv (.context 0) key.bytes
      have hsignature := length_le_length_encodeTlv (.context 1) signature.bytes
      rw [hunread, fields, List.length_append] at hmax
      refine ⟨key.bytes, encodeTlv (.context 1) signature.bytes, hunread, by omega, ?_⟩
      have hnode := ofEd25519Bytes_eq_ok_iff.mpr ⟨key, signature, rfl, rfl, rfl⟩
      exact (exact_expect rfl).bind_construct_fills_iff.mpr
        ⟨signature.bytes, rfl, by rw [Reader.maxLength_nested]; omega, hnode⟩
    | _ => exact absurd hkind nofun

end Leaves

/-! ## Compound nodes -/

section Compound

variable {levels : Nat} {sub : Read Fulfillment} {r : Reader} {f : Fulfillment}
  (hsub : Exact sub encode fun max g ↦ Admissible levels g ∧ g.fields.length ≤ max.toNat)
  (hmax : r.unread.length ≤ r.maxLength.toNat)

include hsub hmax

theorem readPrefixed_fills_iff :
    Fills (readPrefixed sub) r f ↔
      f.kind = .prefixed ∧ Admissible (levels + 1) f ∧ r.unread = f.fields := by
  rw [readPrefixed, (exact_expect rfl).bind_fills_iff]
  constructor
  · rintro ⟨p, rest₁, hunread₁, -, h⟩
    obtain ⟨max, rest₂, hunread₂, -, h⟩ := exact_word.bind_fills_iff.mp h
    obtain ⟨value, rest₃, hunread₃, -, h⟩ := (exact_expect rfl).bind_fills_iff.mp h
    obtain ⟨g, hg, h⟩ := within_bind_fills_iff.mp h
    obtain ⟨hnode, hnil⟩ := construct_fills_iff.mp h
    obtain ⟨hvalue, ⟨hcons, hdepth⟩, -⟩ := hsub.fills_iff.mp hg
    obtain ⟨c, hc, rfl⟩ := ofPrefix_eq_ok_iff.mp hnode
    simp only [Reader.unread_nested] at hunread₂ hunread₃ hnil hvalue
    refine ⟨rfl, ⟨constructible_iff.mpr ⟨hcons, hc⟩, Nat.succ_le_succ hdepth⟩, ?_⟩
    rw [hunread₁, hunread₂, hunread₃, hnil, hvalue, List.append_nil, fields_prefixed]
  · rintro ⟨hkind, ⟨hf, hdepth⟩, hunread⟩
    cases f with
    | prefixed p max g c =>
      obtain ⟨hcons, hc⟩ := constructible_iff.mp hf
      have hp := length_le_length_encodeTlv (.context 0) p
      have hword := length_le_length_encodeTlv (.context 1) (Integer.encodeUInt64 max)
      have hencode := length_le_length_encodeTlv (.contextConstructed 2) g.encode
      have hchild : g.fields.length ≤ r.maxLength.toNat :=
        Nat.le_trans (fields_length_le_prefixed p max g c) (hunread ▸ hmax)
      rw [fields_prefixed] at hunread
      rw [hunread, List.length_append, List.length_append] at hmax
      refine ⟨p, _, hunread, by omega, ?_⟩
      refine exact_word.bind_fills_iff.mpr ⟨max, _, rfl, ?_, ?_⟩
      · rw [Reader.maxLength_nested]
        omega
      refine (exact_expect rfl).bind_fills_iff.mpr
        ⟨g.encode, [], (List.append_nil _).symm, ?_, ?_⟩
      · rw [Reader.maxLength_nested, Reader.maxLength_nested]
        omega
      refine within_bind_fills_iff.mpr ⟨g, ?_, ?_⟩
      · exact hsub.fills_iff.mpr ⟨rfl, ⟨hcons, Nat.le_of_succ_le_succ hdepth⟩, hchild⟩
      · exact construct_fills_iff.mpr ⟨ofPrefix_eq_ok_iff.mpr ⟨c, hc, rfl⟩, rfl⟩
    | _ => exact absurd hkind nofun

theorem readThreshold_fills_iff :
    Fills (readThreshold sub) r f ↔
      f.kind = .threshold ∧ Admissible (levels + 1) f ∧ r.unread = f.fields := by
  rw [readThreshold, (exact_expect rfl).bind_fills_iff]
  constructor
  · rintro ⟨value₁, rest₁, hunread₁, -, h⟩
    obtain ⟨subs, hsubs, h⟩ := within_bind_fills_iff.mp h
    obtain ⟨value₂, rest₂, hunread₂, -, h⟩ := (exact_expect rfl).bind_fills_iff.mp h
    obtain ⟨conds, hconds, h⟩ := within_bind_fills_iff.mp h
    obtain ⟨hnode, hnil⟩ := construct_fills_iff.mp h
    obtain ⟨hvalue₁, hmembers, hsorted⟩ := (hsub.set_fills_iff encode_ne_nil).mp hsubs
    obtain ⟨hvalue₂, -, hsortedConds⟩ :=
      (Condition.exact_read.set_fills_iff Condition.encode_ne_nil).mp hconds
    -- The reader has found both sets in order, so the constructor does not move their members.
    obtain ⟨-, c, hc, rfl⟩ := (ofThreshold_eq_ok_iff_of_sorted hsorted hsortedConds).mp hnode
    simp only [Reader.unread_nested] at hunread₂ hnil hvalue₁ hvalue₂
    refine ⟨rfl, ⟨constructible_iff.mpr ?_, ?_⟩, ?_⟩
    · exact ⟨fun g hg ↦ (hmembers g hg).1.1, rfl, hsorted, hsortedConds, hc⟩
    · exact Nat.succ_le_succ (depthOfAll_le_iff.mpr fun g hg ↦ (hmembers g hg).1.2)
    · rw [hunread₁, hunread₂, hnil, hvalue₁, hvalue₂, List.append_nil, fields_threshold]
  · rintro ⟨hkind, ⟨hf, hdepth⟩, hunread⟩
    cases f with
    | threshold k subs conds c =>
      obtain ⟨hcons, hk, hsorted, hsortedConds, hc⟩ := constructible_iff.mp hf
      have hdepths := depthOfAll_le_iff.mp (Nat.le_of_succ_le_succ hdepth)
      have hsubs := length_le_length_encodeTlv (.contextConstructed 0) (subs.flatMap encode)
      have hconds := length_le_length_encodeTlv (.contextConstructed 1)
        (conds.flatMap Condition.encode)
      have hchild : ∀ g ∈ subs, g.fields.length ≤ r.maxLength.toNat := fun g hg ↦
        Nat.le_trans (fields_length_le_threshold hg k conds c) (hunread ▸ hmax)
      rw [fields_threshold] at hunread
      rw [hunread, List.length_append] at hmax
      refine ⟨subs.flatMap encode, _, hunread, by omega, ?_⟩
      refine within_bind_fills_iff.mpr ⟨subs, ?_, ?_⟩
      · refine (hsub.set_fills_iff encode_ne_nil).mpr ⟨rfl, fun g hg ↦ ?_, hsorted⟩
        exact ⟨⟨hcons g hg, hdepths g hg⟩, hchild g hg⟩
      refine (exact_expect rfl).bind_fills_iff.mpr
        ⟨conds.flatMap Condition.encode, [], (List.append_nil _).symm, ?_, ?_⟩
      · rw [Reader.maxLength_nested]
        omega
      refine within_bind_fills_iff.mpr ⟨conds, ?_, ?_⟩
      · refine (Condition.exact_read.set_fills_iff Condition.encode_ne_nil).mpr
          ⟨rfl, fun d hd ↦ ?_, hsortedConds⟩
        have hmember := length_le_length_flatMap Condition.encode hd
        have hfields := d.fields_length_le
        simp only [Reader.maxLength_nested]
        omega
      · have hnode := (ofThreshold_eq_ok_iff_of_sorted hsorted hsortedConds).mpr
          ⟨hk, c, hc, rfl⟩
        exact construct_fills_iff.mpr ⟨hk ▸ hnode, rfl⟩
    | _ => exact absurd hkind nofun

end Compound

/-! ## Layers -/

/-- Compound nodes are not admissible where none may be nested. -/
theorem not_admissible_zero {f : Fulfillment} (hkind : f.kind.isCompound = true) :
    ¬ Admissible 0 f := by
  rintro ⟨-, hdepth⟩
  cases f with
  | prefixed => exact Nat.not_succ_le_zero _ hdepth
  | threshold => exact Nat.not_succ_le_zero _ hdepth
  | _ => exact absurd hkind nofun

/-- **Fulfillments are read exactly.** -/
theorem exact_read (maxDepth levels : Nat) :
    Exact (read maxDepth levels) encode
      fun max f ↦ Admissible levels f ∧ f.fields.length ≤ max.toNat := by
  induction levels with
  | zero =>
    refine exact_typed_within fun {kind r f} hmax ↦ ?_
    cases kind with
    | preimage => exact readPreimage_fills_iff hmax
    | rsa => exact readRsa_fills_iff hmax
    | ed25519 => exact readEd25519_fills_iff hmax
    | prefixed | threshold =>
      -- Both sides are impossible: the reader throws, and such a node has a level of its own.
      refine ⟨fun ⟨_, h, _⟩ ↦ absurd h nofun, fun ⟨hkind, hf, _⟩ ↦ ?_⟩
      exact absurd hf (not_admissible_zero (hkind ▸ rfl))
  | succ levels ih =>
    refine exact_typed_within fun {kind r f} hmax ↦ ?_
    cases kind with
    | preimage => exact readPreimage_fills_iff hmax
    | rsa => exact readRsa_fills_iff hmax
    | ed25519 => exact readEd25519_fills_iff hmax
    | prefixed => exact readPrefixed_fills_iff ih hmax
    | threshold => exact readThreshold_fills_iff ih hmax

theorem decode_eq_ok_iff {limits : Limits} {bs : Bytes} {f : Fulfillment} :
    decode limits bs = .ok f ↔
      bs = f.encode ∧ Constructible f ∧ f.depth ≤ limits.maxDepth
        ∧ f.fields.length ≤ limits.maxLength.toNat := by
  rw [decode, run_eq_ok_iff, (exact_read _ _).fills_iff, Admissible, and_assoc]

/-- Under the largest ceiling there is, only the depth can be in the way. -/
theorem decode_eq_ok_of_depth_le {f : Fulfillment} (hf : Constructible f)
    (hword : f.fields.length < UInt64.size) {maxDepth : Nat} (hdepth : f.depth ≤ maxDepth) :
    decode ⟨UInt64.ofNat (UInt64.size - 1), maxDepth⟩ f.encode = .ok f := by
  have hmax : (UInt64.ofNat (UInt64.size - 1)).toNat = UInt64.size - 1 := by decide
  exact decode_eq_ok_iff.mpr ⟨rfl, hf, hdepth, by rw [hmax]; omega⟩

/-- Constructible fulfillments are told apart by their encodings. -/
theorem eq_of_encode_eq {f g : Fulfillment} (hf : Constructible f) (hg : Constructible g)
    (hword : g.fields.length < UInt64.size) (h : f.encode = g.encode) : f = g := by
  have hdecode := decode_eq_ok_of_depth_le hf (length_lt_of_encodeTlv_eq h hword)
    (Nat.le_max_left f.depth g.depth)
  have hdecode' := decode_eq_ok_of_depth_le hg hword (Nat.le_max_right f.depth g.depth)
  -- Both are read from the same bytes under the same limits.
  rw [h, hdecode'] at hdecode
  exact (Except.ok.inj hdecode).symm

end Hashlock.Fulfillment
