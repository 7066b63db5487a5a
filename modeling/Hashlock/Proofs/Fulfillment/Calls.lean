import Hashlock.Proofs.Der.Loop
import Hashlock.Proofs.Fulfillment.Codec

/-!
# Calls of the reader for fulfillments

The reader for fulfillments calls itself: once for the fulfillment behind a prefix, and in every turn
of the loop over the fulfilled branches of a threshold. `Calls` lists the calls that reading one node
makes, with the bytes that were cut out for each of them. The list is complete: the reader for nested
fulfillments can be replaced by any other that agrees with it at these calls (`readNode_congr`).

## What bounds the calls

The fields of a node are cut out of the unread input, and the bytes for its calls are cut out of the
fields. Both times a tag and a length stay behind, so a call has at least four bytes less than the
one that makes it (`Calls.length_add_four_le`). That does not depend on what becomes of the call, nor
on what is read after it: the bytes are cut out before the call is made. The limit for the depth is
tested before that, so the calls that are nested in one another are bounded by both
(`Call.length_stack_le`).

Between the calls there are only loops, and those end of themselves as each of their turns takes
bytes (`Loop.terminates_of_advances`).
-/

namespace Hashlock

open Der Read

theorem Condition.advances_read : Advances Condition.read 2 :=
  Condition.exact_read.advances fun _ ↦
    Nat.le_trans (Nat.le_add_left _ _) (length_add_two_le_length_encodeTlv _ _)

namespace Fulfillment

theorem advances_read (maxDepth levels : Nat) : Advances (read maxDepth levels) 2 :=
  (exact_read maxDepth levels).advances fun _ ↦
    Nat.le_trans (Nat.le_add_left _ _) (length_add_two_le_length_encodeTlv _ _)

/-! ## The calls of one node -/

/-- The calls that reading a node makes where `sub` reads what is nested: the bytes that were cut
out for a call, and where its reader stands in them. -/
inductive Calls (sub : Read Fulfillment) (r : Reader) : Bytes → Reader → Prop
  | prefixed {fields p value : Bytes} {max : UInt64} {r₁ r₂ r₃ r₄ : Reader}
      (hnode : typed r = .ok (.prefixed, fields) r₁)
      (hfront : expect (.context 0) (r.nested fields) = .ok p r₂)
      (hmax : field (.context 1) Integer.decodeUInt64 r₂ = .ok max r₃)
      (hvalue : expect (.contextConstructed 2) r₃ = .ok value r₄) :
      Calls sub r value (r.nested value)
  | threshold {fields value : Bytes} {r₁ r₂ : Reader} {s : Loop Fulfillment}
      (hnode : typed r = .ok (.threshold, fields) r₁)
      (hvalue : expect (.contextConstructed 0) (r.nested fields) = .ok value r₂)
      (hturns : Loop.Turns sub (Loop.start (r.nested value)) s) (hopen : s.reader.unread ≠ []) :
      Calls sub r value s.reader

section Node

variable {sub sub' : Read Fulfillment} {r r' : Reader} {maxDepth : Nat} {value : Bytes}

theorem readPrefixed_congr {fields : Bytes} {r₁ : Reader}
    (hnode : typed r = .ok (.prefixed, fields) r₁)
    (h : ∀ value r', Calls sub r value r' → sub' r' = sub r') :
    readPrefixed sub' (r.nested fields) = readPrefixed sub (r.nested fields) := by
  refine bind_congr_of_ok fun p r₂ hp ↦ bind_congr_of_ok fun max r₃ hmax ↦
    bind_congr_of_ok fun value r₄ hvalue ↦ bind_congr_left (within_congr ?_)
  -- The ceiling is the same all along, so the call is made on the bytes that were cut out.
  have hcall : r₄.nested value = r.nested value := by
    obtain ⟨_, -, -, rfl⟩ := (exact_expect rfl).eq_ok_iff.mp hp
    obtain ⟨_, -, -, rfl⟩ := exact_word.eq_ok_iff.mp hmax
    obtain ⟨_, -, -, rfl⟩ := (exact_expect rfl).eq_ok_iff.mp hvalue
    rfl
  rw [hcall]
  exact h value _ (.prefixed hnode hp hmax hvalue)

theorem readThreshold_congr {fields : Bytes} {r₁ : Reader}
    (hnode : typed r = .ok (.threshold, fields) r₁)
    (h : ∀ value r', Calls sub r value r' → sub' r' = sub r') :
    readThreshold sub' (r.nested fields) = readThreshold sub (r.nested fields) := by
  refine bind_congr_of_ok fun value r₂ hvalue ↦ bind_congr_left (within_congr ?_)
  have hcall : r₂.nested value = r.nested value := by
    obtain ⟨_, -, -, rfl⟩ := (exact_expect rfl).eq_ok_iff.mp hvalue
    rfl
  rw [hcall]
  exact Loop.set_congr fun s hs hopen ↦ h value _ (.threshold hnode hvalue hs hopen)

/-- **Reading a node consults the reader for what is nested at its calls and nowhere else.** -/
theorem readNode_congr (h : ∀ value r', Calls sub r value r' → sub' r' = sub r') :
    readNode maxDepth (some sub') r = readNode maxDepth (some sub) r := by
  refine bind_congr_of_ok fun node r₁ hnode ↦ ?_
  obtain ⟨kind, fields⟩ := node
  have hfields : r₁.nested fields = r.nested fields := by
    obtain ⟨_, -, -, rfl⟩ := exact_typed.eq_ok_iff.mp hnode
    rfl
  refine within_congr ?_
  rw [hfields]
  cases kind with
  | prefixed => exact readPrefixed_congr hnode h
  | threshold => exact readThreshold_congr hnode h
  | preimage | rsa | ed25519 => rfl

/-- **A call has four bytes less than the one that makes it**, and its reader stands in the bytes
that were cut out for it. -/
theorem Calls.length_add_four_le {k : Nat} (hsub : Advances sub k) (h : Calls sub r value r') :
    value.length + 4 ≤ r.remaining ∧ r'.unread <:+ value := by
  have hcut {kind : Kind} {fields : Bytes} {r₁ : Reader} (hnode : typed r = .ok (kind, fields) r₁) :
      fields.length + 2 ≤ r.remaining := by
    obtain ⟨rest, hunread, -, -⟩ := exact_typed.eq_ok_iff.mp hnode
    have hunread : r.unread = encodeTlv kind.tag fields ++ rest := hunread
    have htlv := length_add_two_le_length_encodeTlv kind.tag fields
    rw [Reader.remaining, hunread, List.length_append]
    omega
  have hinner {t : Tag} (hlong : t.isLong = false) {r₁ r₂ : Reader}
      (hvalue : expect t r₁ = .ok value r₂) : value.length + 2 ≤ r₁.remaining := by
    obtain ⟨rest, hunread, -, -⟩ := (exact_expect hlong).eq_ok_iff.mp hvalue
    have htlv := length_add_two_le_length_encodeTlv t value
    rw [Reader.remaining, hunread, List.length_append]
    omega
  cases h with
  | @prefixed fields p _ max r₁ r₂ r₃ r₄ hnode hfront hmax hvalue =>
    have hfields := hcut hnode
    have hlast := hinner rfl hvalue
    -- The fields in front of the last one only make it shorter.
    have hskip : r₃.remaining ≤ fields.length := by
      obtain ⟨rest, hunread, -, rfl⟩ := (exact_expect rfl).eq_ok_iff.mp hfront
      obtain ⟨rest', hunread', -, rfl⟩ := exact_word.eq_ok_iff.mp hmax
      rw [Reader.unread_nested] at hunread hunread'
      rw [Reader.remaining, Reader.unread_nested, hunread, hunread', List.length_append,
        List.length_append]
      omega
    exact ⟨by omega, List.suffix_refl _⟩
  | @threshold fields _ r₁ r₂ s hnode hvalue hturns hopen =>
    have hfields := hcut hnode
    have hset : value.length + 2 ≤ fields.length := hinner rfl hvalue
    exact ⟨by omega, (hturns.suffix hsub).1⟩

end Node

/-! ## Nested calls -/

/-- A call of the reader for fulfillments. -/
structure Call where
  /-- The number of compound nodes around it. -/
  depth : Nat
  /-- The bytes that its reader was made for. -/
  buffer : Bytes
  /-- Where its reader stands. -/
  reader : Reader

namespace Call

/-- The call that decoding makes. -/
def root (limits : Limits) (bs : Bytes) : Call := ⟨0, bs, ⟨bs, limits.maxLength⟩⟩

/-- What a call comes to. -/
def result (maxDepth : Nat) (c : Call) : EStateM.Result DecodeError Reader Fulfillment :=
  read maxDepth (maxDepth - c.depth) c.reader

/-- One call makes another, which is nested in it. -/
structure Makes (maxDepth : Nat) (c c' : Call) : Prop where
  depth_lt : c.depth < maxDepth
  depth_eq : c'.depth = c.depth + 1
  calls : Calls (read maxDepth (maxDepth - c'.depth)) c.reader c'.buffer c'.reader

variable {maxDepth : Nat} {c c' : Call}

/-- Where compound nodes may still be nested, a call reads a node, and another reader for what is
nested will do if it agrees at the calls that are made. -/
theorem readNode_eq_result {sub : Read Fulfillment} (hdepth : c.depth < maxDepth)
    (h : ∀ c', c.Makes maxDepth c' → sub c'.reader = c'.result maxDepth) :
    readNode maxDepth (some sub) c.reader = c.result maxDepth := by
  have hlevels : maxDepth - c.depth = maxDepth - (c.depth + 1) + 1 := by omega
  rw [result, hlevels, read]
  exact readNode_congr fun value r' hcall ↦ h ⟨c.depth + 1, value, r'⟩ ⟨hdepth, rfl, hcall⟩

theorem Makes.bounds (h : c.Makes maxDepth c') :
    c'.depth ≤ maxDepth ∧ c'.buffer.length + 4 ≤ c.reader.remaining
      ∧ c'.reader.unread <:+ c'.buffer := by
  obtain ⟨hlt, heq, hcalls⟩ := h
  exact ⟨by omega, hcalls.length_add_four_le (advances_read _ _)⟩

/-- Each call in a stack of calls has one level and four bytes less than the one around it. -/
theorem length_stack_le {stack : List Call} (h : List.IsChain (Makes maxDepth) (c :: stack)) :
    (stack ≠ [] → c.depth + stack.length ≤ maxDepth) ∧ 4 * stack.length ≤ c.reader.remaining := by
  induction stack generalizing c with
  | nil => exact ⟨fun hne ↦ absurd rfl hne, Nat.zero_le _⟩
  | cons c' stack ih =>
    obtain ⟨hmakes, hrest⟩ := List.isChain_cons_cons.mp h
    obtain ⟨hdepths, hbytes⟩ := ih hrest
    obtain ⟨hdepth, hlength, hsuffix⟩ := hmakes.bounds
    have hreader : c'.reader.remaining ≤ c'.buffer.length := hsuffix.length_le
    have hnext := hmakes.depth_eq
    rw [List.length_cons]
    refine ⟨fun _ ↦ ?_, by omega⟩
    rcases stack with - | ⟨c'', stack⟩
    · exact hnext ▸ hdepth
    · have hdepths := hdepths (List.cons_ne_nil _ _)
      omega

theorem remaining_root {limits : Limits} {bs : Bytes} :
    (root limits bs).reader.remaining = bs.length := rfl

/-- Decoding consults the reader for fulfillments at the root, and nowhere else. -/
theorem run_eq_decode {limits : Limits} {bs : Bytes} {m : Read Fulfillment}
    (h : m (root limits bs).reader = (root limits bs).result limits.maxDepth) :
    run m limits.maxLength bs = decode limits bs := by
  have hroot : m ⟨bs, limits.maxLength⟩
      = read limits.maxDepth limits.maxDepth ⟨bs, limits.maxLength⟩ := h
  rw [decode, run, run, complete, complete, bind_congr_left hroot]

end Call

/-! ## Main result -/

/-- **Decoding ends, and its recursion is bounded by the limits and by the input.** The loops end of
themselves, and each of their turns takes two bytes. Decoding makes the call at the root; a call
makes those that `Call.Makes` tells, none where the limit is reached, and each of them four bytes
shorter than what it has itself. -/
theorem decode_bounded (limits : Limits) (bs : Bytes) :
    ((∀ levels, Loop.Terminates (read limits.maxDepth levels))
        ∧ Loop.Terminates Condition.read)
      ∧ (∀ m : Read Fulfillment,
          m (Call.root limits bs).reader = (Call.root limits bs).result limits.maxDepth →
            run m limits.maxLength bs = decode limits bs)
      ∧ (∀ (c : Call) (sub : Read Fulfillment), c.depth < limits.maxDepth →
          (∀ c', c.Makes limits.maxDepth c' → sub c'.reader = c'.result limits.maxDepth) →
            readNode limits.maxDepth (some sub) c.reader = c.result limits.maxDepth)
      ∧ (∀ c : Call, limits.maxDepth ≤ c.depth →
          readNode limits.maxDepth none c.reader = c.result limits.maxDepth)
      ∧ (∀ c c' : Call, c.Makes limits.maxDepth c' →
          c'.depth ≤ limits.maxDepth ∧ c'.buffer.length + 4 ≤ c.reader.remaining
            ∧ c'.reader.unread <:+ c'.buffer)
      ∧ ∀ stack, List.IsChain (Call.Makes limits.maxDepth) (Call.root limits bs :: stack) →
          stack.length + 1 ≤ min limits.maxDepth (bs.length / 4) + 1 := by
  refine ⟨⟨fun levels ↦ Loop.terminates_of_advances (advances_read _ levels),
    Loop.terminates_of_advances Condition.advances_read⟩, fun _ ↦ Call.run_eq_decode,
    fun _ _ ↦ Call.readNode_eq_result, fun c hdepth ↦ ?_, fun _ _ h ↦ h.bounds, fun stack h ↦ ?_⟩
  · rw [Call.result, Nat.sub_eq_zero_of_le hdepth, read]
  · obtain ⟨hdepths, hbytes⟩ := Call.length_stack_le h
    rw [Call.remaining_root] at hbytes
    have hdepth : stack.length ≤ limits.maxDepth := by
      rcases stack with - | ⟨c, stack⟩
      · exact Nat.zero_le _
      · exact Nat.le_trans (Nat.le_add_left _ _) (hdepths (List.cons_ne_nil _ _))
    omega

/-- Nine bytes for three calls, the most there may be. The innermost one is made for a byte that is
no fulfillment, so the input is refused. -/
theorem decode_bounded_nine :
    ∃ (bs : Bytes) (stack : List Call), bs.length = 9 ∧ stack.length + 1 = 3
      ∧ List.IsChain (Call.Makes 16) (Call.root {} bs :: stack)
      ∧ decode {} bs = .error (.unsupportedTag ⟨0xff⟩)
      ∧ stack.length + 1 ≤ min 16 (bs.length / 4) + 1 := by
  have hchain : List.IsChain (Call.Makes 16)
      [Call.root {} [0xa2, 7, 0xa0, 5, 0xa2, 3, 0xa0, 1, 0xff],
        ⟨1, [0xa2, 3, 0xa0, 1, 0xff], ⟨[0xa2, 3, 0xa0, 1, 0xff], 1048576⟩⟩,
        ⟨2, [0xff], ⟨[0xff], 1048576⟩⟩] := by
    refine .cons_cons ⟨by decide, rfl, ?_⟩ (.cons_cons ⟨by decide, rfl, ?_⟩ (.singleton _))
    · exact .threshold rfl rfl .refl (by decide)
    · exact .threshold rfl rfl .refl (by decide)
  exact ⟨_, _, rfl, rfl, hchain, rfl, (decode_bounded {} _).2.2.2.2.2 _ hchain⟩

end Fulfillment

end Hashlock
