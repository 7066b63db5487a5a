import Hashlock.Proofs.Fulfillment.Codec
import Hashlock.Proofs.Fulfillment.Nodes
import Mathlib.Algebra.BigOperators.Group.List.Lemmas
import Mathlib.Algebra.Order.BigOperators.Group.List
import Mathlib.Algebra.Order.Ring.Nat

/-!
# Costs bound sizes

The cost of a fulfillment counts every byte of its preimages and prefixes, and adds an overhead for
each compound node and each branch. What the encoding adds to those bytes is less than that, so a
fulfillment is no longer than it is dear (`Constructible.length_encode_le_cost`). Only where a
preimage stands by itself is there no overhead that pays for the two tags around it.

A cost is a word. So the encodings of compound fulfillments can be told apart, however many branches
they have, and nothing has to be assumed of their length (`Constructible.eq_of_encode_eq`).

## Preimages

The cost of a preimage is its length, taken as a word. Of all the strings that a fulfillment holds,
preimages alone are not bounded by a cost, and `PreimagesFit` says that their lengths are words in
the first place.
-/

namespace Hashlock.Fulfillment

open Der

/-- Every preimage that is revealed has a length that is a word. -/
def PreimagesFit (f : Fulfillment) : Prop :=
  ∀ n p c, (n, .preimage p c) ∈ f.nodes → p.length < UInt64.size

/-- A node adds a preimage if it is one. -/
theorem preimagesFit_iff {f : Fulfillment} :
    f.PreimagesFit ↔ (∀ p c, f = .preimage p c → p.length < UInt64.size)
      ∧ ∀ sub ∈ f.children, sub.PreimagesFit := by
  constructor
  · intro h
    refine ⟨fun p c hf ↦ h 0 p c (hf ▸ f.root_mem_nodes), fun sub hsub n p c hp ↦ ?_⟩
    exact h (n + 1) p c (mem_nodes_of_mem_children hsub hp)
  · rintro ⟨hroot, hsubs⟩ n p c hp
    rcases mem_nodes_iff.mp hp with ⟨-, hf⟩ | ⟨m, -, sub, hsub, hp⟩
    · exact hroot p c hf.symm
    · exact hsubs sub hsub m p c hp

theorem PreimagesFit.of_mem_children {f sub : Fulfillment} (h : f.PreimagesFit)
    (hsub : sub ∈ f.children) : sub.PreimagesFit :=
  (preimagesFit_iff.mp h).2 sub hsub

theorem preimagesFit_preimage_iff {p : Bytes} {c : Condition} :
    (preimage p c).PreimagesFit ↔ p.length < UInt64.size := by
  rw [preimagesFit_iff]
  constructor
  · intro h
    exact h.1 p c rfl
  · intro h
    refine ⟨fun p' c' hp ↦ ?_, fun sub hsub ↦ absurd hsub List.not_mem_nil⟩
    obtain ⟨rfl, rfl⟩ := preimage.inj hp
    exact h

/-! ## Single nodes -/

theorem length_encode_preimage_le {p : Bytes} {c : Condition} (h : p.length < UInt64.size) :
    (preimage p c).encode.length ≤ p.length + 21 := by
  have hword : p.length < 2 ^ 64 := h
  have hp : (encodeTlv (.context 0) p).length ≤ p.length + 8 + 2 := length_encodeTlv_le hword
  have hencode : (preimage p c).encode.length ≤ (encodeTlv (.context 0) p).length + 9 + 2 :=
    length_encodeTlv_le (by rw [fields]; omega)
  omega

theorem length_encode_prefixed_le {p : Bytes} {max : UInt64} {sub : Fulfillment} {c : Condition}
    (hc : Condition.ofPrefix p max sub.condition = .ok c)
    (hsub : sub.encode.length ≤ sub.cost.toNat + 21) :
    (prefixed p max sub c).encode.length ≤ c.cost.toNat := by
  have hcost : c.cost.toNat = p.length + max.toNat + sub.cost.toNat + 1024 :=
    Condition.toNat_cost_of_ofPrefix hc
  have hword : c.cost.toNat < 2 ^ 64 := c.cost.toNat_lt
  have hmaxLength := Integer.length_encodeUInt64_le max
  have hp : (encodeTlv (.context 0) p).length ≤ p.length + 9 + 2 := length_encodeTlv_le (by omega)
  have hmax : (encodeTlv (.context 1) (Integer.encodeUInt64 max)).length = _ :=
    length_encodeTlv_of_lt (by omega)
  have hchild : (encodeTlv (.contextConstructed 2) sub.encode).length
      ≤ sub.encode.length + 9 + 2 := length_encodeTlv_le (by omega)
  have hfields := congrArg List.length (fields_prefixed p max sub c)
  rw [List.length_append, List.length_append] at hfields
  have hencode : (prefixed p max sub c).encode.length
      ≤ (prefixed p max sub c).fields.length + 9 + 2 := length_encodeTlv_le (by omega)
  omega

theorem length_flatMap_encode_le {subs : List Fulfillment}
    (h : ∀ sub ∈ subs, sub.encode.length ≤ sub.cost.toNat + 21) :
    (subs.flatMap encode).length ≤ ((subs.map cost).map UInt64.toNat).sum + 21 * subs.length := by
  rw [List.length_flatMap, List.map_map]
  refine (List.sum_le_sum h).trans (Nat.le_of_eq ?_)
  rw [List.sum_map_add, List.map_const', List.sum_replicate_nat, Nat.mul_comm]
  rfl

/-- Bare conditions are of bounded length, so the overhead pays for each of them. -/
theorem length_flatMap_encode_condition_le (conds : List Condition) :
    (conds.flatMap Condition.encode).length ≤ 129 * conds.length := by
  have hencode : ∀ c ∈ conds, c.encode.length ≤ 129 := fun c _ ↦ by
    have hfields := c.fields_length_lt
    have hlen : c.encode.length = c.fields.length + 2 := length_encodeTlv_of_lt hfields
    omega
  rw [List.length_flatMap]
  refine (List.sum_le_sum hencode).trans (Nat.le_of_eq ?_)
  rw [List.map_const', List.sum_replicate_nat, Nat.mul_comm]

theorem length_encode_threshold_le {subs : List Fulfillment} {conds : List Condition}
    {c : Condition} (hc : Condition.ofThreshold subs.length (branches subs conds) = .ok c)
    (hsubs : ∀ sub ∈ subs, sub.encode.length ≤ sub.cost.toNat + 21) :
    (threshold subs.length subs conds c).encode.length ≤ c.cost.toNat := by
  have hcost := sum_cost_le_of_ofThreshold hc
  obtain ⟨hzero, -, -⟩ := Condition.ofThreshold_eq_ok_iff.mp hc
  have hword : c.cost.toNat < 2 ^ 64 := c.cost.toNat_lt
  have hset := length_flatMap_encode_le hsubs
  have hconds := length_flatMap_encode_condition_le conds
  have hfirst : (encodeTlv (.contextConstructed 0) (subs.flatMap encode)).length
      ≤ (subs.flatMap encode).length + 9 + 2 := length_encodeTlv_le (by omega)
  have hsecond : (encodeTlv (.contextConstructed 1) (conds.flatMap Condition.encode)).length
      ≤ (conds.flatMap Condition.encode).length + 9 + 2 := length_encodeTlv_le (by omega)
  have hfields := congrArg List.length (fields_threshold subs.length subs conds c)
  rw [List.length_append] at hfields
  have hencode : (threshold subs.length subs conds c).encode.length
      ≤ (threshold subs.length subs conds c).fields.length + 9 + 2 :=
    length_encodeTlv_le (by omega)
  omega

theorem length_encode_rsa_le {modulus signature : Bytes} {c : Condition}
    (hhead : modulus.head? ≠ some 0) (hlen : signature.length = modulus.length)
    (hc : Condition.ofRsaModulus modulus = .ok c) :
    (rsa modulus signature c).encode.length ≤ c.cost.toNat := by
  have hcost := Condition.toNat_cost_of_ofRsaModulus hc
  obtain ⟨hmin, hmax, -⟩ := Condition.ofRsaModulus_eq_ok_iff.mp hc
  rw [Integer.magnitude_eq_self hhead] at hcost hmin hmax
  rw [Condition.minModulusLength] at hmin
  rw [Condition.maxModulusLength] at hmax
  have hmodulus : (encodeTlv (.context 0) modulus).length ≤ modulus.length + 2 + 2 :=
    length_encodeTlv_le (by omega)
  have hsignature : (encodeTlv (.context 1) signature).length ≤ signature.length + 2 + 2 :=
    length_encodeTlv_le (by omega)
  have hfields : (rsa modulus signature c).fields.length = _ := List.length_append
  have hencode : (rsa modulus signature c).encode.length
      ≤ (rsa modulus signature c).fields.length + 2 + 2 := length_encodeTlv_le (by omega)
  have hsquare : 128 * modulus.length ≤ modulus.length ^ 2 := by
    rw [Nat.pow_two]
    exact Nat.mul_le_mul_right _ hmin
  omega

theorem length_encode_ed25519 (key : Ed25519.PublicKey) (signature : Ed25519.Signature)
    (c : Condition) : (ed25519 key signature c).encode.length = 102 := by
  have hkey : (encodeTlv (.context 0) key.bytes).length = key.bytes.length + 2 :=
    length_encodeTlv_of_lt (by rw [key.length_bytes]; decide)
  have hsignature : (encodeTlv (.context 1) signature.bytes).length = signature.bytes.length + 2 :=
    length_encodeTlv_of_lt (by rw [signature.length_bytes]; decide)
  rw [key.length_bytes] at hkey
  rw [signature.length_bytes] at hsignature
  have hfields : (ed25519 key signature c).fields.length = _ := List.length_append
  have hencode : (ed25519 key signature c).encode.length
      = (ed25519 key signature c).fields.length + 2 := length_encodeTlv_of_lt (by omega)
  omega

/-! ## Whole trees -/

/-- A node costs what it has in bytes, if its children do so up to the tags around a preimage. -/
theorem Constructible.length_encode_le_of_children {f : Fulfillment} (hf : Constructible f)
    (hkind : f.kind ≠ .preimage)
    (hsubs : ∀ sub ∈ f.children, sub.encode.length ≤ sub.cost.toNat + 21) :
    f.encode.length ≤ f.cost.toNat := by
  have hnode := constructible_iff.mp hf
  cases f with
  | preimage p c => exact absurd rfl hkind
  | prefixed p max sub c =>
    exact length_encode_prefixed_le hnode.2 (hsubs sub List.mem_cons_self)
  | threshold k subs conds c =>
    obtain ⟨-, rfl, -, -, hc⟩ := hnode
    exact length_encode_threshold_le hc hsubs
  | rsa modulus signature c =>
    obtain ⟨hhead, hlen, hc⟩ := hnode
    exact length_encode_rsa_le hhead hlen hc
  | ed25519 key signature c =>
    obtain rfl : c = _ := hnode
    exact Nat.le_trans (Nat.le_of_eq (length_encode_ed25519 _ _ _)) (by decide : 102 ≤ 131072)

theorem Constructible.length_encode_le {f : Fulfillment} (hf : Constructible f)
    (hfit : f.PreimagesFit) : f.encode.length ≤ f.cost.toNat + 21 := by
  refine Constructible.induction_children
    (motive := fun f ↦ f.PreimagesFit → f.encode.length ≤ f.cost.toNat + 21)
    (fun f hf ih hfit ↦ ?_) hf hfit
  by_cases hkind : f.kind = .preimage
  · cases f with
    | preimage p c =>
      obtain rfl : c = _ := constructible_iff.mp hf
      have hp := preimagesFit_preimage_iff.mp hfit
      have hcost : (Fulfillment.ofPreimage p).cost.toNat = p.length :=
        UInt64.toNat_ofNat_of_lt' hp
      exact hcost.symm ▸ length_encode_preimage_le hp
    | _ => exact absurd hkind nofun
  · have hle := hf.length_encode_le_of_children hkind fun sub hsub ↦
      ih sub hsub (hfit.of_mem_children hsub)
    exact Nat.le_add_right_of_le hle

/-- **A fulfillment is no longer than it is dear**, unless it is just a preimage. -/
theorem Constructible.length_encode_le_cost {f : Fulfillment} (hf : Constructible f)
    (hfit : f.PreimagesFit) (hkind : f.kind ≠ .preimage) : f.encode.length ≤ f.cost.toNat :=
  hf.length_encode_le_of_children hkind fun _ hsub ↦
    (hf.of_mem_children hsub).length_encode_le (hfit.of_mem_children hsub)

/-! ## Telling fulfillments apart -/

theorem kind_eq_of_encode_eq {f g : Fulfillment} (h : f.encode = g.encode) : f.kind = g.kind := by
  have hbyte : f.kind.tag.byte = g.kind.tag.byte := (List.cons.inj h).1
  have htag : f.kind.tag = g.kind.tag := congrArg Tag.mk hbyte
  exact Except.ok.inj ((Kind.ofTag_eq_ok_iff.mpr rfl).symm.trans (Kind.ofTag_eq_ok_iff.mpr htag))

/-- A preimage can be told from its encoding, however long it is. -/
theorem Constructible.eq_of_encode_eq_preimage {f g : Fulfillment} (hf : Constructible f)
    (hg : Constructible g) (hkind : g.kind = .preimage) (h : f.encode = g.encode) : f = g := by
  have hkind' := (kind_eq_of_encode_eq h).trans hkind
  cases g with
  | preimage p' c' =>
    cases f with
    | preimage p c =>
      obtain rfl : c = _ := constructible_iff.mp hf
      obtain rfl : c' = _ := constructible_iff.mp hg
      obtain rfl := eq_of_encodeTlv_eq (eq_of_encodeTlv_eq h)
      rfl
    | _ => exact absurd hkind' nofun
  | _ => exact absurd hkind nofun

/-- **Fulfillments whose preimages fit are told apart by their encodings.** -/
theorem Constructible.eq_of_encode_eq {f g : Fulfillment} (hf : Constructible f)
    (hg : Constructible g) (hfit : g.PreimagesFit) (h : f.encode = g.encode) : f = g := by
  by_cases hkind : g.kind = .preimage
  · exact hf.eq_of_encode_eq_preimage hg hkind h
  · have hfields := Nat.le_trans g.fields_length_le (hg.length_encode_le_cost hfit hkind)
    exact Fulfillment.eq_of_encode_eq hf hg (Nat.lt_of_le_of_lt hfields g.cost.toNat_lt) h

end Hashlock.Fulfillment
