import Hashlock.Fulfillment.Signing
import Hashlock.Proofs.Fulfillment.Codec
import Hashlock.Proofs.Fulfillment.Nodes

/-!
# Fulfillments that callers get hold of

Callers construct fulfillments from parts and from raw bytes, sign messages, decode bytes under
limits of their choice, take nodes out of what they have, and go on from there in any order.
`Obtainable` lists these routes one by one.

None of them leads out of what the five constructors give (`obtainable_iff`). The routes that take
bytes end in a constructor, decoded bytes are the encoding of something constructible, and a node
is constructible by itself.

## What can be relied on

`WellFormed` is about one node and the conditions in it, and `Obtainable.wellFormed` is about every
node of every fulfillment that a caller can have. For fields it is read off the form in which a node
is stored, see `Licensed`. A condition carries the proofs of its two rules, however it was made, and
has no room for a bit that stands for no kind.
-/

namespace Hashlock

/-! ## Conditions -/

namespace Condition

/-- What can be relied on in a condition. -/
structure WellFormed (c : Condition) : Prop where
  /-- It passes the checks for parts that a caller gives. -/
  ofParts_eq : ofParts c.kind c.fingerprint c.cost c.subtypes = .ok c
  subtypes_eq_empty : c.kind.isCompound = false → c.subtypes = ∅
  kind_not_mem : c.kind ∉ c.subtypes
  /-- Each bit of the stored set marks a member. -/
  exists_mem_of_testBit : ∀ i, c.subtypes.mask.toNat.testBit i = true →
    ∃ k ∈ c.subtypes, k.index.val = i
  /-- Each bit that is written for the set marks a member. -/
  exists_mem_of_mem_positions : ∀ i ∈ KindSet.positions (c.subtypes.encode.drop 1),
    ∃ k ∈ c.subtypes, k.index.val = i

theorem wellFormed (c : Condition) : c.WellFormed where
  ofParts_eq := ofParts_self c
  subtypes_eq_empty := c.subtypes_of_simple
  kind_not_mem := c.kind_not_mem_subtypes
  exists_mem_of_testBit _ := KindSet.exists_mem_of_testBit
  exists_mem_of_mem_positions _ := KindSet.exists_mem_of_mem_positions

end Condition

namespace Fulfillment

/-! ## Routes -/

/-- What callers get hold of. -/
inductive Obtainable : Fulfillment → Prop
  | ofPreimage (preimage : Bytes) : Obtainable (ofPreimage preimage)
  | ofPrefix {prefixBytes : Bytes} {maxMessageLength : UInt64} {sub f : Fulfillment}
      (hsub : Obtainable sub) (h : ofPrefix prefixBytes maxMessageLength sub = .ok f) :
      Obtainable f
  | ofThreshold {threshold : Nat} {subs : List Fulfillment} {subconditions : List Condition}
      {f : Fulfillment} (hsubs : ∀ sub ∈ subs, Obtainable sub)
      (h : ofThreshold threshold subs subconditions = .ok f) : Obtainable f
  | ofRsa {modulus signature : Bytes} {f : Fulfillment} (h : ofRsa modulus signature = .ok f) :
      Obtainable f
  | ofEd25519 (key : Ed25519.PublicKey) (signature : Ed25519.Signature) :
      Obtainable (ofEd25519 key signature)
  | ofEd25519Bytes {key signature : Bytes} {f : Fulfillment}
      (h : ofEd25519Bytes key signature = .ok f) : Obtainable f
  | signRsa {key : Rsa.PrivateKey} {salt message : Bytes} {f : Fulfillment}
      (h : signRsa key salt message = .ok f) : Obtainable f
  | signEd25519 (key : Ed25519.SecretKey) (message : Bytes) :
      Obtainable (signEd25519 key message)
  | decode {limits : Limits} {bs : Bytes} {f : Fulfillment} (h : decode limits bs = .ok f) :
      Obtainable f
  | child {f sub : Fulfillment} (hf : Obtainable f) (hsub : sub ∈ f.children) : Obtainable sub

theorem exists_ofRsa_of_signRsa {key : Rsa.PrivateKey} {salt message : Bytes} {f : Fulfillment}
    (h : signRsa key salt message = .ok f) :
    ∃ signature, ofRsa key.publicModulus signature = .ok f := by
  rw [signRsa] at h
  cases hsignature : key.sign? salt message with
  | some signature =>
    rw [hsignature] at h
    exact ⟨signature, h⟩
  | none =>
    rw [hsignature] at h
    cases h

theorem Obtainable.constructible {f : Fulfillment} (h : Obtainable f) : Constructible f := by
  induction h with
  | ofPreimage p => exact .ofPreimage p
  | ofPrefix _ h ih => exact .ofPrefix ih h
  | ofThreshold _ h ih => exact .ofThreshold ih h
  | ofRsa h => exact .ofRsa h
  | ofEd25519 key signature => exact .ofEd25519 key signature
  | ofEd25519Bytes h =>
    obtain ⟨key, signature, -, -, rfl⟩ := ofEd25519Bytes_eq_ok_iff.mp h
    exact .ofEd25519 key signature
  | signRsa h =>
    obtain ⟨signature, h⟩ := exists_ofRsa_of_signRsa h
    exact .ofRsa h
  | signEd25519 key message => exact .ofEd25519 key.publicKey (key.sign message)
  | decode h => exact (decode_eq_ok_iff.mp h).2.1
  | child _ hsub ih => exact ih.of_mem_children hsub

theorem Constructible.obtainable {f : Fulfillment} (h : Constructible f) : Obtainable f := by
  induction h with
  | ofPreimage p => exact .ofPreimage p
  | ofPrefix _ h ih => exact .ofPrefix ih h
  | ofThreshold _ h ih => exact .ofThreshold ih h
  | ofRsa h => exact .ofRsa h
  | ofEd25519 key signature => exact .ofEd25519 key signature

/-- **Callers get what the constructors give and nothing else.** -/
theorem obtainable_iff {f : Fulfillment} : Obtainable f ↔ Constructible f :=
  ⟨Obtainable.constructible, Constructible.obtainable⟩

/-! ## Nodes -/

/-- What can be relied on in the fields of a node. -/
def FieldsWellFormed : Fulfillment → Prop
  | threshold k subs conds _ =>
    1 ≤ k ∧ subs.length = k
      ∧ subs.Pairwise (fun f g ↦ Bytes.le f.encode g.encode = true)
      ∧ conds.Pairwise (fun c d ↦ Bytes.le c.encode d.encode = true)
  | rsa modulus signature _ =>
    128 ≤ modulus.length ∧ modulus.length ≤ 512
      ∧ (∃ b rest, modulus = b :: rest ∧ b ≠ 0) ∧ signature.length = modulus.length
  | preimage .. | prefixed .. | ed25519 .. => True

/-- What can be relied on in a node. -/
structure WellFormed (f : Fulfillment) : Prop where
  fields : f.FieldsWellFormed
  kind_condition : f.condition.kind = f.kind
  conditions : ∀ c ∈ f.condition :: f.bareConditions, c.WellFormed

/-- A modulus that has a condition has digits, and the first is not zero. -/
theorem exists_eq_cons_of_ofRsaModulus {modulus : Bytes} {c : Condition}
    (hhead : modulus.head? ≠ some 0) (h : Condition.ofRsaModulus modulus = .ok c) :
    128 ≤ modulus.length ∧ modulus.length ≤ 512 ∧ ∃ b rest, modulus = b :: rest ∧ b ≠ 0 := by
  obtain ⟨hmin, hmax, -⟩ := Condition.ofRsaModulus_eq_ok_iff.mp h
  rw [Integer.magnitude_eq_self hhead] at hmin hmax
  refine ⟨hmin, hmax, ?_⟩
  cases modulus with
  | nil => exact absurd hmin (by decide)
  | cons b rest =>
    refine ⟨b, rest, rfl, fun hb ↦ hhead ?_⟩
    rw [hb, List.head?_cons]

theorem Constructible.fieldsWellFormed {f : Fulfillment} (hf : Constructible f) :
    f.FieldsWellFormed := by
  have hnode := constructible_iff.mp hf
  cases f with
  | threshold k subs conds c =>
    obtain ⟨-, hlen, hsubs, hconds, hc⟩ := hnode
    obtain ⟨hzero, -⟩ := Condition.ofThreshold_eq_ok_iff.mp hc
    exact ⟨Nat.one_le_iff_ne_zero.mpr hzero, hlen, hsubs, hconds⟩
  | rsa modulus signature c =>
    obtain ⟨hhead, hlen, hc⟩ := hnode
    obtain ⟨hmin, hmax, hcons⟩ := exists_eq_cons_of_ofRsaModulus hhead hc
    exact ⟨hmin, hmax, hcons, hlen⟩
  | preimage | prefixed | ed25519 => trivial

theorem Constructible.wellFormed {f : Fulfillment} (hf : Constructible f) : f.WellFormed where
  fields := hf.fieldsWellFormed
  kind_condition := hf.kind_condition
  conditions c _ := c.wellFormed

/-- **Every node that a caller can have is well formed**, whatever routes led to it. -/
theorem Obtainable.wellFormed_of_mem_nodes {f : Fulfillment} (hf : Obtainable f) {n : Nat}
    {g : Fulfillment} (hg : (n, g) ∈ f.nodes) : g.WellFormed := by
  have hg := hf.constructible.of_mem_nodes hg
  exact hg.wellFormed

/-- The sample, decoded and then put behind a prefix: the threshold node is one step from the
root. -/
theorem wellFormed_of_decode_sample :
    ∃ f h, decode {} f.encode = .ok f ∧ ofPrefix [0x51] 4 f = .ok h ∧ Obtainable h
      ∧ (1, f) ∈ h.nodes ∧ f.WellFormed ∧ f.kind = .threshold := by
  have hwrapped : (sample >>= ofPrefix [0x51] 4).isOk = true := by decide +kernel
  obtain ⟨h, hwrapped⟩ := Result.exists_eq_ok_of_isOk hwrapped
  obtain ⟨f, hsample, hprefix⟩ := Result.bind_eq_ok_iff.mp hwrapped
  have hdecode : sample.map (fun f ↦ (decide (decode {} f.encode = .ok f), f.kind))
      = .ok (true, .threshold) := by decide +kernel
  rw [hsample] at hdecode
  obtain ⟨hdecode, hkind⟩ := Prod.mk.inj (Except.ok.inj hdecode)
  have hdecode := of_decide_eq_true hdecode
  have hobtainable : Obtainable h := .ofPrefix (.decode hdecode) hprefix
  have hnode : (1, f) ∈ h.nodes := by
    obtain ⟨c, -, rfl⟩ := ofPrefix_eq_ok_iff.mp hprefix
    exact mem_nodes_of_mem_children List.mem_cons_self f.root_mem_nodes
  exact ⟨f, h, hdecode, hprefix, hobtainable, hnode,
    hobtainable.wellFormed_of_mem_nodes hnode, hkind⟩

/-- The type has room for nodes that are not well formed. -/
example (c : Condition) : ¬ (threshold 0 [] [] c).WellFormed :=
  fun h ↦ absurd h.fields.1 (by decide)

end Fulfillment

end Hashlock
