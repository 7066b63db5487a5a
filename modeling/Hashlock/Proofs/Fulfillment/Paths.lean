import Hashlock.Fulfillment.Verification
import Hashlock.Proofs.Fulfillment.Codec
import Mathlib.Control.Monad.Basic

/-!
# Checking a fulfillment along its paths

Checking recurses through a fulfillment and stops at the first error. The result can be told without
the recursion: list the nodes in preorder, each with the message that arrives at it through the
prefixes above it, and look for the first node with a fault. Without one, what counts is that all
signatures hold (`verify_eq_checkVisits`).

## The invariant

A threshold node compares the number of its satisfied branches with its threshold. What turns this
into a conjunction is that constructible nodes have exactly as many fulfilled branches as their
threshold demands, so that none may fail. The number of satisfied branches is only known where no
branch has an error; `countSatisfied_le` bounds it there.
-/

namespace Hashlock

/-! ## Keys

A key that can be used gives an answer for every message and every signature, and one that cannot
gives the same error for all of them. -/

namespace Rsa

/-- The error of a modulus that is no key. -/
def keyError? (modulus : Bytes) : Option VerifyError :=
  match checkModulus (Integer.value modulus) with
  | .error cause => some (.invalidRsaKey cause)
  | .ok () => none

theorem verify_of_keyError? {modulus : Bytes} {e : VerifyError} (h : keyError? modulus = some e)
    (message signature : Bytes) : verify modulus message signature = .error e := by
  unfold keyError? at h
  unfold verify
  dsimp only
  cases hkey : checkModulus (Integer.value modulus) with
  | error cause =>
    rw [hkey] at h
    exact congrArg Except.error (Option.some.inj h)
  | ok =>
    rw [hkey] at h
    exact absurd h nofun

theorem exists_verify_eq_ok {modulus : Bytes} (h : keyError? modulus = none)
    (message signature : Bytes) : ∃ b, verify modulus message signature = .ok b := by
  unfold keyError? at h
  unfold verify
  dsimp only
  cases hkey : checkModulus (Integer.value modulus) with
  | error cause =>
    rw [hkey] at h
    exact absurd h nofun
  | ok =>
    dsimp only
    split
    · exact ⟨_, rfl⟩
    · exact ⟨_, rfl⟩

end Rsa

namespace Ed25519.PublicKey

/-- The error of a key that is no point of the curve. -/
def keyError? (key : PublicKey) : Option VerifyError :=
  match Point.decode? key.bytes with
  | none => some .invalidPublicKey
  | some _ => none

theorem verify_of_keyError? {key : PublicKey} {e : VerifyError} (h : key.keyError? = some e)
    (message : Bytes) (signature : Signature) : key.verify message signature = .error e := by
  unfold keyError? at h
  unfold verify
  cases hkey : Point.decode? key.bytes with
  | none =>
    rw [hkey] at h
    exact congrArg Except.error (Option.some.inj h)
  | some a =>
    rw [hkey] at h
    exact absurd h nofun

theorem exists_verify_eq_ok {key : PublicKey} (h : key.keyError? = none)
    (message : Bytes) (signature : Signature) : ∃ b, key.verify message signature = .ok b := by
  unfold keyError? at h
  unfold verify
  cases hkey : Point.decode? key.bytes with
  | none =>
    rw [hkey] at h
    exact absurd h nofun
  | some a =>
    dsimp only
    split
    · exact ⟨_, rfl⟩
    · exact ⟨_, rfl⟩

end Ed25519.PublicKey

namespace Fulfillment

/-! ## Visits -/

/-- A node with the message that arrives at it. -/
structure Visit where
  /-- The node. -/
  node : Fulfillment
  /-- The message. -/
  message : Bytes

mutual

/-- The nodes of a fulfillment in preorder, with the messages that arrive at them. -/
def visits : Fulfillment → Bytes → List Visit
  | f@(prefixed p _ sub _), message => ⟨f, message⟩ :: visits sub (p ++ message)
  | f@(threshold _ subs _ _), message => ⟨f, message⟩ :: visitsOfAll subs message
  | f@(preimage ..), message | f@(rsa ..), message | f@(ed25519 ..), message => [⟨f, message⟩]

/-- The visits of fulfillments that the same message arrives at. -/
def visitsOfAll : List Fulfillment → Bytes → List Visit
  | [], _ => []
  | f :: fs, message => visits f message ++ visitsOfAll fs message

end

namespace Visit

/-- The error of a prefix node at which too long a message arrives. -/
def tooLong? : Visit → Option VerifyError
  | ⟨.prefixed _ max _ _, message⟩ =>
    if max.toNat < message.length then some (.messageTooLong message.length max) else none
  | _ => none

/-- The error of a leaf whose key cannot be used. -/
def unusableKey? : Visit → Option VerifyError
  | ⟨.rsa modulus _ _, _⟩ => Rsa.keyError? modulus
  | ⟨.ed25519 key _ _, _⟩ => key.keyError?
  | _ => none

/-- What is wrong with a node by itself. -/
def fault? (v : Visit) : Option VerifyError := v.tooLong?.or v.unusableKey?

/-- Whether the signature of a leaf holds for the message that arrives there; nodes without a
signature have nothing to hold. -/
def signatureHolds : Visit → Bool
  | ⟨.rsa modulus signature _, message⟩ => decide (Rsa.verify modulus message signature = .ok true)
  | ⟨.ed25519 key signature _, message⟩ => decide (key.verify message signature = .ok true)
  | _ => true

/-- The result at one node, its children left aside. -/
def check (v : Visit) : Except VerifyError Bool :=
  match v.fault? with
  | some e => .error e
  | none => .ok v.signatureHolds

end Visit

/-- The first fault there is, or else whether all signatures hold. -/
def checkVisits (vs : List Visit) : Except VerifyError Bool :=
  match vs.findSome? Visit.fault? with
  | some e => .error e
  | none => .ok (vs.all Visit.signatureHolds)

/-! ## Sequences of visits -/

theorem checkVisits_append (vs ws : List Visit) :
    checkVisits (vs ++ ws) = do
      let b ← checkVisits vs
      let b' ← checkVisits ws
      return b && b' := by
  rw [checkVisits, checkVisits, checkVisits, List.findSome?_append, List.all_append]
  cases vs.findSome? Visit.fault? with
  | some e => rfl
  | none =>
    rw [Option.none_or]
    cases ws.findSome? Visit.fault? with
    | some e => rfl
    | none => rfl

theorem checkVisits_singleton (v : Visit) : checkVisits [v] = v.check := by
  rw [checkVisits, Visit.check, List.findSome?_cons, List.findSome?_nil, List.all_cons,
    List.all_nil, Bool.and_true]
  cases v.fault? with
  | some e => rfl
  | none => rfl

theorem checkVisits_cons (v : Visit) (vs : List Visit) :
    checkVisits (v :: vs) = do
      let b ← v.check
      let b' ← checkVisits vs
      return b && b' := by
  rw [← List.singleton_append, checkVisits_append, checkVisits_singleton]

/-! ## Single visits -/

/-- A leaf answers by its key first and then by its signature. -/
theorem check_of_answer {v : Visit} {x : Except VerifyError Bool}
    (hholds : v.signatureHolds = decide (x = .ok true))
    (herror : ∀ e, v.fault? = some e → x = .error e) (hok : v.fault? = none → ∃ b, x = .ok b) :
    v.check = x := by
  rw [Visit.check]
  cases hfault : v.fault? with
  | some e => exact (herror e hfault).symm
  | none =>
    obtain ⟨b, rfl⟩ := hok hfault
    rw [hholds]
    cases b with
    | true => rfl
    | false => rfl

theorem check_rsa (modulus signature message : Bytes) (c : Condition) :
    Visit.check ⟨.rsa modulus signature c, message⟩ = Rsa.verify modulus message signature := by
  have hfault : Visit.fault? ⟨.rsa modulus signature c, message⟩
      = Rsa.keyError? modulus := Option.none_or
  refine check_of_answer rfl (fun e h ↦ ?_) fun h ↦ ?_
  · exact Rsa.verify_of_keyError? (hfault ▸ h) message signature
  · exact Rsa.exists_verify_eq_ok (hfault ▸ h) message signature

theorem check_ed25519 (key : Ed25519.PublicKey) (signature : Ed25519.Signature) (message : Bytes)
    (c : Condition) :
    Visit.check ⟨.ed25519 key signature c, message⟩ = key.verify message signature := by
  have hfault : Visit.fault? ⟨.ed25519 key signature c, message⟩
      = key.keyError? := Option.none_or
  refine check_of_answer rfl (fun e h ↦ ?_) fun h ↦ ?_
  · exact Ed25519.PublicKey.verify_of_keyError? (hfault ▸ h) message signature
  · exact Ed25519.PublicKey.exists_verify_eq_ok (hfault ▸ h) message signature

theorem fault?_prefixed (p : Bytes) (max : UInt64) (sub : Fulfillment) (c : Condition)
    (message : Bytes) :
    Visit.fault? ⟨.prefixed p max sub c, message⟩ =
      if max.toNat < message.length then some (.messageTooLong message.length max) else none :=
  Option.or_none

theorem check_prefixed (p : Bytes) (max : UInt64) (sub : Fulfillment) (c : Condition)
    (message : Bytes) :
    Visit.check ⟨.prefixed p max sub c, message⟩ =
      if max.toNat < message.length then .error (.messageTooLong message.length max)
      else .ok true := by
  rw [Visit.check, fault?_prefixed]
  by_cases hlong : max.toNat < message.length
  · rw [if_pos hlong, if_pos hlong]
  · rw [if_neg hlong, if_neg hlong]
    rfl

/-! ## Threshold nodes -/

theorem countSatisfied_le {fs : List Fulfillment} {message : Bytes} {n : Nat}
    (h : countSatisfied fs message = .ok n) : n ≤ fs.length := by
  induction fs generalizing n with
  | nil =>
    rw [countSatisfied] at h
    exact Nat.le_of_eq (Except.ok.inj h).symm
  | cons f fs ih =>
    rw [countSatisfied] at h
    cases hf : verify f f.condition message with
    | error e => rw [hf] at h; exact absurd h nofun
    | ok satisfied =>
      cases hfs : countSatisfied fs message with
      | error e => rw [hf, hfs] at h; exact absurd h nofun
      | ok others =>
        rw [hf, hfs] at h
        have hn : others + satisfied.toNat = n := Except.ok.inj h
        have hle := ih hfs
        have hone := satisfied.toNat_le
        rw [List.length_cons]
        omega

/-- Where every branch is satisfied, as many are as there are. -/
theorem countSatisfied_eq_length {fs : List Fulfillment} {message : Bytes}
    (h : ∀ f ∈ fs, f.verify f.condition message = .ok true) :
    countSatisfied fs message = .ok fs.length := by
  induction fs with
  | nil => rfl
  | cons f fs ih =>
    rw [List.forall_mem_cons] at h
    rw [countSatisfied, h.1, ih h.2]
    rfl

/-- The branches of a threshold node that demands all of them. -/
theorem countSatisfied_eq_checkVisits {fs : List Fulfillment} {message : Bytes}
    (h : ∀ f ∈ fs, f.verify f.condition message = checkVisits (f.visits message)) :
    (do return decide (fs.length ≤ (← countSatisfied fs message)))
      = checkVisits (visitsOfAll fs message) := by
  induction fs with
  | nil => rfl
  | cons f fs ih =>
    obtain ⟨hf, hfs⟩ := List.forall_mem_cons.mp h
    rw [visitsOfAll, checkVisits_append, ← ih hfs, ← hf, countSatisfied]
    cases verify f f.condition message with
    | error e => rfl
    | ok satisfied =>
      cases hcount : countSatisfied fs message with
      | error e => rfl
      | ok others =>
        have hle := countSatisfied_le hcount
        -- Where this branch fails, the others alone cannot reach the number.
        refine congrArg Except.ok ?_
        rw [List.length_cons]
        cases satisfied with
        | true => exact decide_eq_decide.mpr Nat.succ_le_succ_iff
        | false => exact decide_eq_false (Nat.not_le.mpr (Nat.lt_succ_of_le hle))

/-! ## Whole fulfillments -/

/-- Against its own condition, a constructible fulfillment is checked visit by visit. -/
theorem verify_condition_eq_checkVisits {f : Fulfillment} (hf : Constructible f) :
    ∀ message, f.verify f.condition message = checkVisits (f.visits message) := by
  refine Constructible.induction
    (motive := fun f ↦ ∀ message, f.verify f.condition message = checkVisits (f.visits message))
    (fun f hf message ↦ ?_) hf
  cases f with
  | preimage p c =>
    rw [verify, visits, checkVisits_singleton]
    exact congrArg Except.ok (beq_self_eq_true c)
  | prefixed p max sub c =>
    obtain ⟨⟨-, ih⟩, -⟩ := hf
    rw [verify, visits, checkVisits_cons, check_prefixed, ← ih]
    by_cases hlong : max.toNat < message.length
    · rw [if_pos hlong, if_pos hlong]
      rfl
    · have hown : ¬ c ≠ (prefixed p max sub c).condition := not_not_intro rfl
      rw [if_neg hlong, if_neg hlong, if_neg hown]
      cases verify sub sub.condition (p ++ message) with
      | error e => rfl
      | ok b => rfl
  | threshold k subs conds c =>
    -- The threshold is the number of branches, so all of them are demanded.
    obtain ⟨hsubs, rfl, -, -, -⟩ := hf
    have hall := countSatisfied_eq_checkVisits fun sub hsub ↦ (hsubs sub hsub).2 message
    have hown : ¬ c ≠ (threshold subs.length subs conds c).condition := not_not_intro rfl
    rw [verify, visits, checkVisits_cons, ← hall, if_neg hown]
    cases countSatisfied subs message with
    | error e => rfl
    | ok n => rfl
  | rsa modulus signature c =>
    rw [verify, visits, checkVisits_singleton, check_rsa]
    exact if_neg (not_not_intro rfl)
  | ed25519 key signature c =>
    rw [verify, visits, checkVisits_singleton, check_ed25519]
    exact if_neg (not_not_intro rfl)

/-- Against any other condition, only a prefix node at the root can have an error. -/
theorem verify_of_ne {f : Fulfillment} {c : Condition} (hc : c ≠ f.condition) (message : Bytes) :
    f.verify c message =
      match Visit.tooLong? ⟨f, message⟩ with
      | some e => .error e
      | none => .ok false := by
  cases f with
  | preimage p own =>
    have hown : (own == c) = false := beq_eq_false_iff_ne.mpr hc.symm
    exact congrArg Except.ok hown
  | prefixed p max sub own =>
    have hown : own ≠ c := hc.symm
    rw [verify, Visit.tooLong?]
    by_cases hlong : max.toNat < message.length
    · rw [if_pos hlong, if_pos hlong]
    · rw [if_neg hlong, if_neg hlong, if_pos hown]
  | threshold k subs conds own => exact if_pos hc.symm
  | rsa modulus signature own => exact if_pos hc.symm
  | ed25519 key signature own => exact if_pos hc.symm

/-- **Checking is a walk along the paths.** -/
theorem verify_eq_checkVisits {f : Fulfillment}
    (hf : Constructible f ∨ ∃ limits bs, decode limits bs = .ok f) (c : Condition)
    (message : Bytes) :
    f.verify c message =
      if c = f.condition then checkVisits (f.visits message)
      else match Visit.tooLong? ⟨f, message⟩ with
        | some e => .error e
        | none => .ok false := by
  have hf : Constructible f := by
    rcases hf with hf | ⟨limits, bs, hdecode⟩
    · exact hf
    · exact (decode_eq_ok_iff.mp hdecode).2.1
  by_cases hc : c = f.condition
  · rw [if_pos hc, hc, verify_condition_eq_checkVisits hf]
  · rw [if_neg hc, verify_of_ne hc]

/-- The prefix node below the root admits eight bytes, and the root itself any number. -/
theorem verify_sample : ∃ f, sample = .ok f ∧ Constructible f
    ∧ f.verify f.condition [1, 2, 3, 4, 5, 6, 7, 8, 9] = .error (.messageTooLong 9 8)
    ∧ f.verify f.condition [1, 2, 3, 4, 5, 6, 7, 8] = .ok true
    ∧ f.verify (Condition.ofPreimage [0x02]) [1, 2, 3, 4, 5, 6, 7, 8, 9] = .ok false := by
  obtain ⟨f, h, hf⟩ := exists_sample
  have hlong : sample.map (fun f ↦ checkVisits (f.visits [1, 2, 3, 4, 5, 6, 7, 8, 9]))
      = .ok (.error (.messageTooLong 9 8)) := by decide +kernel
  have hshort : sample.map (fun f ↦ checkVisits (f.visits [1, 2, 3, 4, 5, 6, 7, 8]))
      = .ok (.ok true) := by decide +kernel
  have hother : sample.map (fun f ↦ (Visit.tooLong? ⟨f, [1, 2, 3, 4, 5, 6, 7, 8, 9]⟩,
      decide (Condition.ofPreimage [0x02] = f.condition))) = .ok (none, false) := by decide +kernel
  rw [h] at hlong hshort hother
  obtain ⟨hroot, hne⟩ := Prod.mk.inj (Except.ok.inj hother)
  refine ⟨f, h, hf, ?_, ?_, ?_⟩
  · rw [verify_eq_checkVisits (.inl hf), if_pos rfl]
    exact Except.ok.inj hlong
  · rw [verify_eq_checkVisits (.inl hf), if_pos rfl]
    exact Except.ok.inj hshort
  · rw [verify_eq_checkVisits (.inl hf), if_neg (of_decide_eq_false hne), hroot]

end Fulfillment

end Hashlock
