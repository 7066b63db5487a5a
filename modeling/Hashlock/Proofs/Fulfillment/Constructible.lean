import Hashlock.Fulfillment.Nodes
import Hashlock.Proofs.Bytes.Order
import Hashlock.Proofs.Condition.Derivation
import Hashlock.Proofs.Integer
import Hashlock.Proofs.Result

/-!
# Fulfillments that can be constructed

The type `Fulfillment` has room for values that no constructor gives: a node could hold a condition
that is not its own, or branches out of order. `Constructible` singles out what comes from the
constructors, nested in any way.

For proofs the constructors are turned around. `constructible_iff` says of a node what it takes to
be constructible in the form in which it is stored, with its branches sorted and its modulus
stripped of leading zeros, and `Constructible.induction` goes from children to nodes in that form.

The condition that a node holds has one of two shapes, whatever the kind of the node
(`Constructible.condition_eq_leaf_or_compound`), and what holds of all conditions is read off there.
-/

namespace Hashlock.Fulfillment

/-- What the constructors give, nested in any way. -/
inductive Constructible : Fulfillment → Prop
  | ofPreimage (preimage : Bytes) : Constructible (ofPreimage preimage)
  | ofPrefix {prefixBytes : Bytes} {maxMessageLength : UInt64} {sub f : Fulfillment}
      (hsub : Constructible sub) (h : ofPrefix prefixBytes maxMessageLength sub = .ok f) :
      Constructible f
  | ofThreshold {threshold : Nat} {subs : List Fulfillment} {subconditions : List Condition}
      {f : Fulfillment} (hsubs : ∀ sub ∈ subs, Constructible sub)
      (h : ofThreshold threshold subs subconditions = .ok f) : Constructible f
  | ofRsa {modulus signature : Bytes} {f : Fulfillment} (h : ofRsa modulus signature = .ok f) :
      Constructible f
  | ofEd25519 (key : Ed25519.PublicKey) (signature : Ed25519.Signature) :
      Constructible (ofEd25519 key signature)

/-! ## What the constructors give -/

theorem ofPrefix_eq_ok_iff {p : Bytes} {max : UInt64} {sub f : Fulfillment} :
    ofPrefix p max sub = .ok f ↔
      ∃ c, Condition.ofPrefix p max sub.condition = .ok c ∧ f = .prefixed p max sub c := by
  rw [ofPrefix, Result.bind_eq_ok_iff]
  simp only [Result.pure_eq_ok_iff]

theorem ofThreshold_eq_ok_iff {k : Nat} {subs : List Fulfillment} {conds : List Condition}
    {f : Fulfillment} :
    ofThreshold k subs conds = .ok f ↔
      subs.length = k ∧ ∃ c,
        Condition.ofThreshold k (branches (Bytes.sortOn encode subs) (Condition.sort conds)) = .ok c
          ∧ f = .threshold k (Bytes.sortOn encode subs) (Condition.sort conds) c := by
  rw [ofThreshold]
  constructor
  · intro h
    split at h
    · exact absurd h nofun
    split at h
    · exact absurd h nofun
    split at h
    · exact absurd h nofun
    rename_i hfew hmany
    obtain ⟨c, hc, h⟩ := Result.bind_eq_ok_iff.mp h
    exact ⟨by omega, c, hc, Result.pure_eq_ok_iff.mp h⟩
  · rintro ⟨hlen, c, hc, rfl⟩
    obtain ⟨hzero, -⟩ := Condition.ofThreshold_eq_ok_iff.mp hc
    rw [if_neg hzero, if_neg (by omega), if_neg (by omega)]
    exact Result.bind_eq_ok_iff.mpr ⟨c, hc, rfl⟩

/-- Branches that are in order are taken as they are. -/
theorem ofThreshold_eq_ok_iff_of_sorted {k : Nat} {subs : List Fulfillment}
    {conds : List Condition} {f : Fulfillment}
    (hsubs : subs.Pairwise fun f g ↦ Bytes.le f.encode g.encode = true)
    (hconds : conds.Pairwise fun c d ↦ Bytes.le c.encode d.encode = true) :
    ofThreshold k subs conds = .ok f ↔
      subs.length = k ∧ ∃ c,
        Condition.ofThreshold k (branches subs conds) = .ok c ∧ f = .threshold k subs conds c := by
  rw [ofThreshold_eq_ok_iff, Bytes.sortOn_eq_self hsubs, Condition.sort,
    Bytes.sortOn_eq_self hconds]

theorem ofRsa_eq_ok_iff {modulus signature : Bytes} {f : Fulfillment} :
    ofRsa modulus signature = .ok f ↔
      ∃ c, Condition.ofRsaModulus (Integer.magnitude modulus) = .ok c
        ∧ signature.length = (Integer.magnitude modulus).length
        ∧ f = .rsa (Integer.magnitude modulus) signature c := by
  rw [ofRsa, Result.bind_eq_ok_iff]
  refine exists_congr fun c ↦ and_congr_right fun _ ↦ ?_
  by_cases hlen : signature.length = (Integer.magnitude modulus).length
  · rw [if_neg (not_not_intro hlen), Result.pure_eq_ok_iff]
    exact (and_iff_right hlen).symm
  · rw [if_pos hlen]
    exact ⟨fun h ↦ absurd h nofun, fun h ↦ absurd h.1 hlen⟩

/-- A modulus without a leading zero is taken as it is. -/
theorem ofRsa_eq_ok_iff_of_head? {modulus signature : Bytes} {f : Fulfillment}
    (hhead : modulus.head? ≠ some 0) :
    ofRsa modulus signature = .ok f ↔
      ∃ c, Condition.ofRsaModulus modulus = .ok c ∧ signature.length = modulus.length
        ∧ f = .rsa modulus signature c := by
  rw [ofRsa_eq_ok_iff, Integer.magnitude_eq_self hhead]

/-- Bytes make up a key and a signature only if they are those of one. -/
theorem ofEd25519Bytes_eq_ok_iff {key signature : Bytes} {f : Fulfillment} :
    ofEd25519Bytes key signature = .ok f ↔
      ∃ (k : Ed25519.PublicKey) (s : Ed25519.Signature),
        key = k.bytes ∧ signature = s.bytes ∧ f = ofEd25519 k s := by
  constructor
  · intro h
    rw [ofEd25519Bytes] at h
    split at h
    · exact absurd h nofun
    · exact absurd h nofun
    · rename_i k s hkey hsignature
      obtain ⟨k', hk, rfl⟩ := Option.map_eq_some_iff.mp hkey
      obtain ⟨s', hs, rfl⟩ := Option.map_eq_some_iff.mp hsignature
      exact ⟨_, _, FixedBytes.ofBytes?_eq_some_iff.mp hk, FixedBytes.ofBytes?_eq_some_iff.mp hs,
        (Except.ok.inj h).symm⟩
  · rintro ⟨k, s, rfl, rfl, rfl⟩
    rw [ofEd25519Bytes, Ed25519.PublicKey.ofBytes?_bytes, Ed25519.Signature.ofBytes?_bytes]

/-! ## Nodes -/

/-- What it takes a node to be constructible, where `P` is what it takes its children. -/
def Licensed (P : Fulfillment → Prop) : Fulfillment → Prop
  | .preimage p c => c = Condition.ofPreimage p
  | .prefixed p max sub c => P sub ∧ Condition.ofPrefix p max sub.condition = .ok c
  | .threshold k subs conds c =>
    (∀ sub ∈ subs, P sub) ∧ subs.length = k
      ∧ subs.Pairwise (fun f g ↦ Bytes.le f.encode g.encode = true)
      ∧ conds.Pairwise (fun c d ↦ Bytes.le c.encode d.encode = true)
      ∧ Condition.ofThreshold k (branches subs conds) = .ok c
  | .rsa modulus signature c =>
    modulus.head? ≠ some 0 ∧ signature.length = modulus.length
      ∧ Condition.ofRsaModulus modulus = .ok c
  | .ed25519 key _ c => c = Condition.ofEd25519Key key

theorem Licensed.mono {P Q : Fulfillment → Prop} {f : Fulfillment} (h : Licensed P f)
    (hPQ : ∀ g, P g → Q g) : Licensed Q f := by
  cases f with
  | preimage => exact h
  | prefixed => exact h.imp_left (hPQ _)
  | threshold => exact h.imp_left fun hsubs sub hsub ↦ hPQ sub (hsubs sub hsub)
  | rsa => exact h
  | ed25519 => exact h

/-- Induction from the children of a node to the node as it is stored. -/
theorem Constructible.induction {motive : Fulfillment → Prop}
    (node : ∀ f, Licensed (fun g ↦ Constructible g ∧ motive g) f → motive f) {f : Fulfillment}
    (h : Constructible f) : motive f := by
  induction h with
  | ofPreimage p => exact node _ rfl
  | ofPrefix hsub h ih =>
    obtain ⟨c, hc, rfl⟩ := ofPrefix_eq_ok_iff.mp h
    exact node _ ⟨⟨hsub, ih⟩, hc⟩
  | ofThreshold hsubs h ih =>
    obtain ⟨hlen, c, hc, rfl⟩ := ofThreshold_eq_ok_iff.mp h
    -- The node holds the branches in order; they are the ones that were given.
    refine node _ ⟨fun sub hsub ↦ ?_, (Bytes.length_sortOn _).trans hlen,
      Bytes.pairwise_sortOn _, Bytes.pairwise_sortOn _, hc⟩
    have hsub := Bytes.mem_sortOn.mp hsub
    exact ⟨hsubs sub hsub, ih sub hsub⟩
  | ofRsa h =>
    obtain ⟨c, hc, hlen, rfl⟩ := ofRsa_eq_ok_iff.mp h
    exact node _ ⟨Integer.head?_magnitude _, hlen, hc⟩
  | ofEd25519 key signature => exact node _ rfl

theorem constructible_iff {f : Fulfillment} : Constructible f ↔ Licensed Constructible f := by
  constructor
  · intro h
    exact h.induction fun f hf ↦ hf.mono fun g hg ↦ hg.1
  · intro h
    cases f with
    | preimage p c =>
      obtain rfl : c = _ := h
      exact .ofPreimage p
    | prefixed p max sub c =>
      obtain ⟨hsub, hc⟩ := h
      exact .ofPrefix hsub (ofPrefix_eq_ok_iff.mpr ⟨c, hc, rfl⟩)
    | threshold k subs conds c =>
      obtain ⟨hsubs, hlen, hsorted, hconds, hc⟩ := h
      exact .ofThreshold hsubs
        ((ofThreshold_eq_ok_iff_of_sorted hsorted hconds).mpr ⟨hlen, c, hc, rfl⟩)
    | rsa modulus signature c =>
      obtain ⟨hhead, hlen, hc⟩ := h
      exact .ofRsa ((ofRsa_eq_ok_iff_of_head? hhead).mpr ⟨c, hc, hlen, rfl⟩)
    | ed25519 key signature c =>
      obtain rfl : c = _ := h
      exact .ofEd25519 key signature

theorem Licensed.constructible {P : Fulfillment → Prop} {f : Fulfillment}
    (h : Licensed (fun g ↦ Constructible g ∧ P g) f) : Constructible f :=
  constructible_iff.mpr (h.mono fun _ ↦ And.left)

/-! ## Conditions of nodes -/

/-- The fulfillments right below a node. -/
def children : Fulfillment → List Fulfillment
  | prefixed _ _ sub _ => [sub]
  | threshold _ subs _ _ => subs
  | preimage .. | rsa .. | ed25519 .. => []

/-- The bare conditions right below a node. -/
def bareConditions : Fulfillment → List Condition
  | threshold _ _ subconditions _ => subconditions
  | preimage .. | prefixed .. | rsa .. | ed25519 .. => []

/-- The conditions that the condition of a node is derived from. -/
def nested (f : Fulfillment) : List Condition := f.children.map condition ++ f.bareConditions

/-- The condition that a node holds is derived from the node, whatever its kind. -/
theorem Constructible.condition_eq_leaf_or_compound {f : Fulfillment} (hf : Constructible f) :
    (f.nested = [] ∧ ∃ cost, f.condition = .leaf f.kind (.digest f.contents) cost)
      ∨ ∃ hown cost, f.condition = .compound f.kind hown f.contents cost f.nested := by
  have hnode := constructible_iff.mp hf
  cases f with
  | preimage p c =>
    obtain rfl : c = _ := hnode
    exact .inl ⟨rfl, _, rfl⟩
  | prefixed p max sub c =>
    obtain ⟨cost, -, rfl⟩ := Condition.ofPrefix_eq_ok_iff.mp hnode.2
    exact .inr ⟨rfl, cost, rfl⟩
  | threshold k subs conds c =>
    obtain ⟨-, -, -, -, hc⟩ := hnode
    obtain ⟨-, -, cost, -, rfl⟩ := Condition.ofThreshold_eq_ok_iff.mp hc
    exact .inr ⟨rfl, cost, rfl⟩
  | rsa modulus signature c =>
    obtain ⟨hhead, -, hc⟩ := hnode
    obtain ⟨-, -, rfl⟩ := Condition.ofRsaModulus_eq_ok_iff.mp hc
    rw [Integer.magnitude_eq_self hhead]
    exact .inl ⟨rfl, _, rfl⟩
  | ed25519 key signature c =>
    obtain rfl : c = _ := hnode
    exact .inl ⟨rfl, _, rfl⟩

/-- The condition of a constructible fulfillment is of its kind. -/
theorem Constructible.kind_condition {f : Fulfillment} (hf : Constructible f) :
    f.condition.kind = f.kind := by
  rcases hf.condition_eq_leaf_or_compound with ⟨-, cost, hc⟩ | ⟨hown, cost, hc⟩
  · exact congrArg Condition.kind hc
  · exact congrArg Condition.kind hc

/-- The fingerprint that a node holds is the digest of what its data says. -/
theorem Constructible.fingerprint_condition {f : Fulfillment} (hf : Constructible f) :
    f.condition.fingerprint = Fingerprint.digest f.contents := by
  rcases hf.condition_eq_leaf_or_compound with ⟨-, cost, hc⟩ | ⟨hown, cost, hc⟩
  · exact congrArg Condition.fingerprint hc
  · exact congrArg Condition.fingerprint hc

/-! ## A sample -/

/-- One branch of two: a preimage behind a prefix is fulfilled, another preimage is not. -/
def sample : Except ConstructionError Fulfillment := do
  let sub ← ofPrefix [0x50] 8 (ofPreimage [0x01])
  ofThreshold 1 [sub] [Condition.ofPreimage [0x02]]

theorem exists_sample : ∃ f, sample = .ok f ∧ Constructible f := by
  obtain ⟨f, h⟩ := Result.exists_eq_ok_of_isOk (by decide +kernel : sample.isOk = true)
  obtain ⟨sub, hsub, hf⟩ := Result.bind_eq_ok_iff.mp h
  refine ⟨f, h, .ofThreshold (fun g hg ↦ ?_) hf⟩
  obtain rfl := List.mem_singleton.mp hg
  exact .ofPrefix (.ofPreimage _) hsub

end Hashlock.Fulfillment
