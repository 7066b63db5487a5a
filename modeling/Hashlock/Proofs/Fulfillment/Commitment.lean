import Hashlock.Fulfillment.Nodes
import Hashlock.Proofs.Condition.Contents
import Hashlock.Proofs.Fulfillment.Paths

/-!
# What a condition commits to

A condition is published first and fulfilled later, by someone who may choose. Two statements say
how much is settled by then.

* **Any choice will do.** Of the branches of a threshold condition, those to be proved are chosen
  when the fulfillment is made. Whichever are chosen, with whatever signatures and in whatever
  order, the node discharges the one condition that was published (`ofThreshold_commits`).
* **Nothing else will do.** Two fulfillments of one condition agree on all that its fingerprint was
  taken of: what they may differ in is the choice of branches and the signatures. The exception is
  written out: it is a pair of byte strings, both computed from the fulfillments, that SHA-256 does
  not tell apart (`sameCommitment_or_collision`).

## Why the collision is explicit

That SHA-256 has some collision is a fact about its size, and a statement that allows for any of
them says nothing. So the second statement names the two strings, which are the contents of the two
fulfillments. What remains is to read contents back, and that succeeds because the cost of a
condition bounds the fields of its contents: a prefix that has a cost is shorter than 2^64 bytes.
-/

namespace Hashlock.Fulfillment

/-! ## Choices of branches -/

theorem branches_perm {subs subs' : List Fulfillment} {conds conds' : List Condition}
    (hsubs : subs.Perm subs') (hconds : conds.Perm conds') :
    (branches subs conds).Perm (branches subs' conds') :=
  (hsubs.map condition).append hconds

/-- The condition of a threshold node is derived from its branches in any order. -/
theorem ofThreshold_eq_map {k : Nat} {subs : List Fulfillment} {conds bs : List Condition}
    (hzero : k ≠ 0) (hlen : subs.length = k) (hbs : bs.Perm (branches subs conds)) :
    ofThreshold k subs conds = (Condition.ofThreshold k bs).map
      (threshold k (Bytes.sortOn encode subs) (Condition.sort conds)) := by
  have hperm : (branches (Bytes.sortOn encode subs) (Condition.sort conds)).Perm bs :=
    (branches_perm (Bytes.sortOn_perm subs) (Bytes.sortOn_perm conds)).trans hbs.symm
  rw [ofThreshold, if_neg hzero, if_neg (by omega), if_neg (by omega)]
  dsimp only
  rw [Condition.ofThreshold_eq_of_perm k hperm]
  cases Condition.ofThreshold k bs with
  | error e => rfl
  | ok c => rfl

/-- Fulfilled branches fulfil the threshold. -/
theorem verify_threshold_of_forall {k : Nat} {subs : List Fulfillment} {conds : List Condition}
    {c : Condition} {message : Bytes} (hk : k ≤ subs.length)
    (h : ∀ sub ∈ subs, sub.verify sub.condition message = .ok true) :
    (threshold k subs conds c).verify c message = .ok true := by
  rw [verify, if_neg (not_not_intro rfl), countSatisfied_eq_length h]
  exact congrArg Except.ok (decide_eq_true hk)

/-- **One condition stands for every choice of branches.** -/
theorem ofThreshold_commits {k : Nat} (hk : 1 ≤ k) {subs : List Fulfillment}
    (hlen : subs.length = k) {conds bs : List Condition} (hbs : bs.Perm (branches subs conds)) :
    ((∃ f, ofThreshold k subs conds = .ok f) ↔ ∃ c, Condition.ofThreshold k bs = .ok c)
      ∧ (∀ e, ofThreshold k subs conds = .error e → e = .costOverflow)
      ∧ (∀ e, Condition.ofThreshold k bs = .error e → e = .costOverflow)
      ∧ ∀ f c, ofThreshold k subs conds = .ok f → Condition.ofThreshold k bs = .ok c →
          f.condition = c
            ∧ ∀ message, (∀ sub ∈ subs, sub.verify sub.condition message = .ok true) →
                f.verify c message = .ok true := by
  have hzero : k ≠ 0 := Nat.one_le_iff_ne_zero.mp hk
  have hfew : k ≤ bs.length := by
    rw [hbs.length_eq, branches, List.length_append, List.length_map]
    omega
  have hmap := ofThreshold_eq_map hzero hlen hbs
  cases hc : Condition.ofThreshold k bs with
  | error e =>
    obtain rfl := Condition.eq_costOverflow_of_ofThreshold hzero hfew hc
    rw [hmap, hc]
    refine ⟨?_, ?_, ?_, ?_⟩
    · exact iff_of_false (fun ⟨f, h⟩ ↦ absurd h nofun) (fun ⟨c, h⟩ ↦ absurd h nofun)
    · intro e h
      exact (Except.error.inj h).symm
    · intro e h
      exact (Except.error.inj h).symm
    · intro f c h
      exact absurd h nofun
  | ok c =>
    rw [hmap, hc]
    refine ⟨iff_of_true ⟨_, rfl⟩ ⟨c, rfl⟩, ?_, ?_, ?_⟩
    · intro e h
      exact absurd h nofun
    · intro e h
      exact absurd h nofun
    · intro f c' hf hc'
      obtain rfl := Except.ok.inj hf
      obtain rfl := Except.ok.inj hc'
      refine ⟨rfl, fun message hsubs ↦ verify_threshold_of_forall ?_ fun sub hsub ↦ ?_⟩
      · exact Nat.le_of_eq ((Bytes.length_sortOn subs).trans hlen).symm
      · exact hsubs sub (Bytes.mem_sortOn.mp hsub)

/-- Two of three preimages, published in one order and proved in others. -/
theorem ofThreshold_commits_two_of_three :
    ∃ c, Condition.ofThreshold 2
        [Condition.ofPreimage [3], Condition.ofPreimage [1], Condition.ofPreimage [2]] = .ok c
      ∧ (∃ f, ofThreshold 2 [ofPreimage [2], ofPreimage [1]] [Condition.ofPreimage [3]] = .ok f
          ∧ f.condition = c ∧ f.verify c [] = .ok true)
      ∧ ∃ f, ofThreshold 2 [ofPreimage [3], ofPreimage [2]] [Condition.ofPreimage [1]] = .ok f
          ∧ f.condition = c ∧ f.verify c [] = .ok true := by
  obtain ⟨c, hc⟩ := Result.exists_eq_ok_of_isOk (by decide +kernel : (Condition.ofThreshold 2
    [Condition.ofPreimage [3], Condition.ofPreimage [1], Condition.ofPreimage [2]]).isOk = true)
  -- Which two are proved does not matter, as long as they and the third make up the branches.
  have hchoice : ∀ a b d : Bytes,
      [Condition.ofPreimage [3], Condition.ofPreimage [1], Condition.ofPreimage [2]].Perm
        (branches [ofPreimage a, ofPreimage b] [Condition.ofPreimage d]) →
      ∃ f, ofThreshold 2 [ofPreimage a, ofPreimage b] [Condition.ofPreimage d] = .ok f
        ∧ f.condition = c ∧ f.verify c [] = .ok true := by
    intro a b d hperm
    obtain ⟨hiff, -, -, hcommits⟩ := ofThreshold_commits (k := 2) (by decide) rfl hperm
    obtain ⟨f, hf⟩ := hiff.mpr ⟨c, hc⟩
    obtain ⟨hcondition, hverify⟩ := hcommits f c hf hc
    refine ⟨f, hf, hcondition, hverify [] ?_⟩
    simp [ofPreimage, verify, condition]
  have hfirst := (branches [ofPreimage [2], ofPreimage [1]] [Condition.ofPreimage [3]]).reverse_perm
  exact ⟨c, hc, hchoice [2] [1] [3] hfirst, hchoice [3] [2] [1] ((List.Perm.swap _ _ _).cons _)⟩

/-! ## What contents tell -/

/-- Fulfillments that commit to the same data: of branches that are proved, only the conditions
count, and of signatures nothing does. -/
def SameCommitment : Fulfillment → Fulfillment → Prop
  | .preimage p _, .preimage p' _ => p = p'
  | .prefixed p max sub _, .prefixed p' max' sub' _ =>
    p = p' ∧ max = max' ∧ sub.condition = sub'.condition
  | .threshold k subs conds _, .threshold k' subs' conds' _ =>
    k = k' ∧ (branches subs conds).Perm (branches subs' conds')
  | .rsa modulus _ _, .rsa modulus' _ _ => modulus = modulus'
  | .ed25519 key _ _, .ed25519 key' _ _ => key = key'
  | _, _ => False

/-- A prefix is counted in the cost of its condition. -/
theorem Constructible.length_prefix_lt {p : Bytes} {max : UInt64} {sub : Fulfillment}
    {c : Condition} (hf : Constructible (.prefixed p max sub c)) : p.length < UInt64.size := by
  have hcost := Condition.toNat_cost_of_ofPrefix (constructible_iff.mp hf).2
  have hword := c.cost.toNat_lt_size
  omega

/-- A threshold is no more than the branches, which are counted in the cost of its condition. -/
theorem Constructible.threshold_lt {k : Nat} {subs : List Fulfillment} {conds : List Condition}
    {c : Condition} (hf : Constructible (.threshold k subs conds c)) : k < UInt64.size := by
  obtain ⟨-, -, -, -, hc⟩ := constructible_iff.mp hf
  have hcost := Condition.toNat_cost_of_ofThreshold hc
  obtain ⟨-, hfew, -⟩ := Condition.ofThreshold_eq_ok_iff.mp hc
  have hword := c.cost.toNat_lt_size
  omega

/-- Contents of one kind can be read back. -/
theorem sameCommitment_of_contents_eq {f g : Fulfillment} (hf : Constructible f)
    (hg : Constructible g) (hkind : f.kind = g.kind) (h : f.contents = g.contents) :
    f.SameCommitment g := by
  cases f with
  | preimage p c =>
    cases g with
    | preimage p' c' => exact h
    | _ => exact absurd hkind nofun
  | prefixed p max sub c =>
    cases g with
    | prefixed p' max' sub' c' =>
      exact Contents.prefixed_inj hf.length_prefix_lt hg.length_prefix_lt h
    | _ => exact absurd hkind nofun
  | threshold k subs conds c =>
    cases g with
    | threshold k' subs' conds' c' => exact Contents.threshold_inj hf.threshold_lt hg.threshold_lt h
    | _ => exact absurd hkind nofun
  | rsa modulus signature c =>
    cases g with
    | rsa modulus' signature' c' => exact Contents.rsa_inj h
    | _ => exact absurd hkind nofun
  | ed25519 key signature c =>
    cases g with
    | ed25519 key' signature' c' => exact Contents.ed25519_inj h
    | _ => exact absurd hkind nofun

/-- **Conditions bind what they commit to**, unless two strings at hand collide under SHA-256. -/
theorem sameCommitment_or_collision {f g : Fulfillment} (hf : Constructible f)
    (hg : Constructible g) (h : f.condition = g.condition) :
    (f.contents ≠ g.contents ∧ Sha256.digest f.contents = Sha256.digest g.contents)
      ∨ (f.kind = g.kind ∧ f.SameCommitment g) := by
  have hkind : f.kind = g.kind := by
    rw [← hf.kind_condition, h, hg.kind_condition]
  by_cases hcontents : f.contents = g.contents
  · exact .inr ⟨hkind, sameCommitment_of_contents_eq hf hg hkind hcontents⟩
  · have hdigest : Fingerprint.digest f.contents = Fingerprint.digest g.contents := by
      rw [← hf.fingerprint_condition, h, hg.fingerprint_condition]
    exact .inl ⟨hcontents, congrArg (fun d : Fingerprint ↦ d.bytes) hdigest⟩

/-- The sample with the other one of its two branches fulfilled. -/
def otherSample : Except ConstructionError Fulfillment := do
  let nested ← Condition.ofPrefix [0x50] 8 (Condition.ofPreimage [0x01])
  ofThreshold 1 [ofPreimage [0x02]] [nested]

theorem exists_otherSample : ∃ f, otherSample = .ok f ∧ Constructible f := by
  obtain ⟨f, h⟩ := Result.exists_eq_ok_of_isOk (by decide +kernel : otherSample.isOk = true)
  obtain ⟨nested, -, hf⟩ := Result.bind_eq_ok_iff.mp h
  refine ⟨f, h, .ofThreshold (fun g hg ↦ ?_) hf⟩
  obtain rfl := List.mem_singleton.mp hg
  exact .ofPreimage _

/-- Different fulfillments of one condition share their branches. -/
theorem sameCommitment_of_samples : ∃ f g, sample = .ok f ∧ otherSample = .ok g
    ∧ Constructible f ∧ Constructible g ∧ f ≠ g ∧ f.condition = g.condition
    ∧ f.SameCommitment g := by
  obtain ⟨f, hsample, hf⟩ := exists_sample
  obtain ⟨g, hother, hg⟩ := exists_otherSample
  have hne : sample ≠ otherSample := by decide +kernel
  have hequal : sample.map (fun f ↦ (f.contents, f.condition))
      = otherSample.map (fun g ↦ (g.contents, g.condition)) := by decide +kernel
  rw [hsample, hother] at hne hequal
  obtain ⟨hcontents, hcondition⟩ := Prod.mk.inj (Except.ok.inj hequal)
  refine ⟨f, g, hsample, hother, hf, hg, fun h ↦ hne (congrArg Except.ok h), hcondition, ?_⟩
  rcases sameCommitment_or_collision hf hg hcondition with ⟨hcollision, -⟩ | ⟨-, hsame⟩
  · exact absurd hcontents hcollision
  · exact hsame

end Hashlock.Fulfillment
