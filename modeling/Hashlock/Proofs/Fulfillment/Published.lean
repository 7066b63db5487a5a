import Hashlock.Proofs.Fulfillment.Obtainable

/-!
# Conditions from public data

A condition is published before anybody fulfils it, by a party that has nothing to sign with. The
fulfillment comes later, and the condition that it holds was derived by other code from other data:
branches are in canonical order by then, leading zeros of a modulus are gone, and decoding derives
the condition again instead of reading it. Still it is the same condition
(`Obtainable.condition_eq`).

Two readings of public data are compared with the condition that a node holds. `Publishes` is about
one node and takes the conditions of its children as they are: it is what the constructors of
conditions give for that node, with branches in any order and any number of zeros before a modulus.
`published` starts at the leaves and derives everything anew.

The bytes behind a fingerprint are a third: `contents` puts them together from the stored fields.
-/

namespace Hashlock.Fulfillment

/-! ## One node -/

/-- What the constructors of conditions give for the public data of a node. The condition that the
node holds and its signature are not looked at. -/
inductive Publishes : Fulfillment → Except ConstructionError Condition → Prop
  | preimage (p : Bytes) (own : Condition) :
      Publishes (.preimage p own) (.ok (Condition.ofPreimage p))
  | prefixed (p : Bytes) (max : UInt64) (sub : Fulfillment) (own : Condition) :
      Publishes (.prefixed p max sub own) (Condition.ofPrefix p max sub.condition)
  | threshold (k : Nat) {subs : List Fulfillment} {conds bs : List Condition} (own : Condition)
      (h : bs.Perm (branches subs conds)) :
      Publishes (.threshold k subs conds own) (Condition.ofThreshold k bs)
  | rsa (zeros : Nat) (modulus signature : Bytes) (own : Condition) :
      Publishes (.rsa modulus signature own)
        (Condition.ofRsaModulus (List.replicate zeros 0 ++ modulus))
  | ed25519 (key : Ed25519.PublicKey) (signature : Ed25519.Signature) (own : Condition) :
      Publishes (.ed25519 key signature own) (.ok (Condition.ofEd25519Key key))

/-- Public data gives the condition that the node holds. -/
theorem Constructible.eq_of_publishes {f : Fulfillment} (hf : Constructible f)
    {x : Except ConstructionError Condition} (h : f.Publishes x) : x = .ok f.condition := by
  have hnode := constructible_iff.mp hf
  cases h with
  | preimage p own => exact congrArg Except.ok hnode.symm
  | prefixed p max sub own => exact hnode.2
  | threshold k own hperm =>
    obtain ⟨-, -, -, -, hc⟩ := hnode
    exact (Condition.ofThreshold_eq_of_perm k hperm).trans hc
  | rsa zeros modulus signature own =>
    obtain ⟨-, -, hc⟩ := hnode
    have hzeros := Integer.magnitude_replicate_append zeros modulus
    exact (Condition.ofRsaModulus_eq_of_magnitude_eq hzeros).trans hc
  | ed25519 key signature own => exact congrArg Except.ok hnode.symm

theorem exists_publishes (f : Fulfillment) : ∃ x, f.Publishes x := by
  cases f with
  | preimage p own => exact ⟨_, .preimage p own⟩
  | prefixed p max sub own => exact ⟨_, .prefixed p max sub own⟩
  | threshold k subs conds own => exact ⟨_, .threshold k own (.refl _)⟩
  | rsa modulus signature own => exact ⟨_, .rsa 0 modulus signature own⟩
  | ed25519 key signature own => exact ⟨_, .ed25519 key signature own⟩

theorem Constructible.publishes_iff {f : Fulfillment} (hf : Constructible f)
    {x : Except ConstructionError Condition} : f.Publishes x ↔ x = .ok f.condition := by
  constructor
  · exact hf.eq_of_publishes
  · rintro rfl
    obtain ⟨x, hx⟩ := exists_publishes f
    rwa [hf.eq_of_publishes hx] at hx

/-! ## From the leaves up -/

mutual

/-- The condition that follows from the public data of a fulfillment and of everything nested in
it. -/
def published : Fulfillment → Except ConstructionError Condition
  | preimage p _ => .ok (Condition.ofPreimage p)
  | prefixed p max sub _ => do Condition.ofPrefix p max (← published sub)
  | threshold k subs conds _ => do Condition.ofThreshold k ((← publishedAll subs) ++ conds)
  | rsa modulus _ _ => Condition.ofRsaModulus modulus
  | ed25519 key _ _ => .ok (Condition.ofEd25519Key key)

/-- The conditions that follow from the public data of some fulfillments. -/
def publishedAll : List Fulfillment → Except ConstructionError (List Condition)
  | [] => .ok []
  | f :: fs => do return (← published f) :: (← publishedAll fs)

end

theorem publishedAll_eq {fs : List Fulfillment} (h : ∀ f ∈ fs, f.published = .ok f.condition) :
    publishedAll fs = .ok (fs.map condition) := by
  induction fs with
  | nil => rfl
  | cons f fs ih =>
    obtain ⟨hf, hfs⟩ := List.forall_mem_cons.mp h
    rw [publishedAll, hf, ih hfs]
    rfl

/-- Deriving everything anew gives the condition that the root holds. -/
theorem Constructible.published_eq {f : Fulfillment} (hf : Constructible f) :
    f.published = .ok f.condition := by
  refine hf.induction (motive := fun f ↦ f.published = .ok f.condition) fun f hnode ↦ ?_
  cases f with
  | preimage p c =>
    obtain rfl : c = _ := hnode
    rfl
  | prefixed p max sub c =>
    obtain ⟨⟨-, hsub⟩, hc⟩ := hnode
    rw [published, hsub]
    exact hc
  | threshold k subs conds c =>
    obtain ⟨hsubs, -, -, -, hc⟩ := hnode
    rw [published, publishedAll_eq fun sub hsub ↦ (hsubs sub hsub).2]
    exact hc
  | rsa modulus signature c => exact hnode.2.2
  | ed25519 key signature c =>
    obtain rfl : c = _ := hnode
    rfl

/-! ## Main result -/

/-- **Whoever knows the public data knows the condition.** -/
theorem Obtainable.condition_eq {f : Fulfillment} (hf : Obtainable f) :
    (∀ {n g}, (n, g) ∈ f.nodes →
        g.condition.fingerprint.bytes = Sha256.digest g.contents
          ∧ (∀ x, g.Publishes x ↔ x = .ok g.condition)
          ∧ g.published = .ok g.condition)
      ∧ ∀ modulus signature, Fulfillment.ofRsa modulus signature = .ok f →
          Condition.ofRsaModulus modulus = .ok f.condition := by
  constructor
  · intro n g hg
    have hg := hf.constructible.of_mem_nodes hg
    refine ⟨?_, fun x ↦ hg.publishes_iff, hg.published_eq⟩
    rw [hg.fingerprint_condition]
    rfl
  · intro modulus signature h
    obtain ⟨c, hc, -, rfl⟩ := ofRsa_eq_ok_iff.mp h
    have hdigits := Integer.magnitude_eq_self (Integer.head?_magnitude modulus)
    exact (Condition.ofRsaModulus_eq_of_magnitude_eq hdigits.symm).trans hc

/-- The condition of the sample, from its branches in the other order, and that of a modulus with
zeros in front. -/
theorem condition_eq_sample :
    (∃ f sub, sample = .ok f ∧ Obtainable f ∧ (1, sub) ∈ f.nodes
        ∧ Condition.ofThreshold 1 [.ofPreimage [0x02], sub.condition] = .ok f.condition
        ∧ sub.condition.fingerprint.bytes = Sha256.digest sub.contents)
      ∧ ∃ f, ofRsa ([0, 0, 0] ++ List.replicate 128 1) (List.replicate 128 0) = .ok f
        ∧ Condition.ofRsaModulus ([0, 0, 0] ++ List.replicate 128 1) = .ok f.condition := by
  constructor
  · obtain ⟨f, hsample, hf⟩ := exists_sample
    obtain ⟨sub, -, hthreshold⟩ := Result.bind_eq_ok_iff.mp hsample
    obtain ⟨-, c, -, hf'⟩ := ofThreshold_eq_ok_iff.mp hthreshold
    have hnode : (1, sub) ∈ f.nodes := by
      rw [hf']
      exact mem_nodes_of_mem_children List.mem_cons_self sub.root_mem_nodes
    have hobtainable := hf.obtainable
    have hroot := (hobtainable.condition_eq.1 f.root_mem_nodes).2.1
    have hsub := (hobtainable.condition_eq.1 hnode).1
    have hpublishes : f.Publishes
        (Condition.ofThreshold 1 [.ofPreimage [0x02], sub.condition]) := by
      rw [hf']
      exact .threshold 1 c (.swap _ _ _)
    exact ⟨f, sub, hsample, hobtainable, hnode, (hroot _).mp hpublishes, hsub⟩
  · have hok : (ofRsa ([0, 0, 0] ++ List.replicate 128 1) (List.replicate 128 0)).isOk = true := by
      decide +kernel
    obtain ⟨f, hf⟩ := Result.exists_eq_ok_of_isOk hok
    exact ⟨f, hf, (Obtainable.ofRsa hf).condition_eq.2 _ _ hf⟩

end Hashlock.Fulfillment
