import Hashlock.Proofs.Fulfillment.Commitment
import Hashlock.Proofs.Fulfillment.RoundTrip

/-!
# Threshold nodes in any arrangement

The members of a threshold node can be written one after the other in any arrangement. One of these
is the encoding of the node. What the decoder makes of all of them is said by `decode_arranged`:
where two neighbours are out of order, that is the error; an arrangement without such neighbours
goes to the constructor that callers use, and what the constructor says is the result.

## Where the first fault is

The decoder learns what a member is before it compares it with the one in front of it, so a fault
inside a member would come first. Here the members are constructible, and there is none. The second
set is only looked at when the first one is in order, and the constructor only sees sets in order:
it does not move their members, and the cost is all that it can still object to.
-/

namespace Hashlock.Fulfillment

open Der Read

/-! ## Writing members in any arrangement -/

/-- The fields of a threshold node with its members as they are arranged. -/
def arrangedFields (subs : List Fulfillment) (conds : List Condition) : Bytes :=
  encodeTlv (.contextConstructed 0) (subs.flatMap encode)
    ++ encodeTlv (.contextConstructed 1) (conds.flatMap Condition.encode)

/-- A threshold node with its members as they are arranged. -/
def encodeArranged (subs : List Fulfillment) (conds : List Condition) : Bytes :=
  encodeTlv Kind.threshold.tag (arrangedFields subs conds)

variable {subs : List Fulfillment} {conds : List Condition}

/-- The encoding of a node shows its members in the arrangement in which it holds them. -/
theorem encode_threshold (k : Nat) (subs : List Fulfillment) (conds : List Condition)
    (c : Condition) : (threshold k subs conds c).encode = encodeArranged subs conds := by
  rw [encode, fields_threshold]
  rfl

/-- What fits under a ceiling has sets and members that do. -/
theorem fits_of_length_arrangedFields_le {max : Nat}
    (h : (arrangedFields subs conds).length ≤ max) :
    (subs.flatMap encode).length ≤ max ∧ (conds.flatMap Condition.encode).length ≤ max
      ∧ (∀ sub ∈ subs, sub.fields.length ≤ max) ∧ ∀ c ∈ conds, c.fields.length ≤ max := by
  have hsubs := length_le_length_encodeTlv (.contextConstructed 0) (subs.flatMap encode)
  have hconds := length_le_length_encodeTlv (.contextConstructed 1)
    (conds.flatMap Condition.encode)
  rw [arrangedFields, List.length_append] at h
  refine ⟨by omega, by omega, fun sub hsub ↦ ?_, fun c hc ↦ ?_⟩
  · have hmember := length_le_length_flatMap encode hsub
    have hfields := sub.fields_length_le
    omega
  · have hmember := length_le_length_flatMap Condition.encode hc
    have hfields := c.fields_length_le
    omega

/-! ## Reading them -/

section Reading

variable {levels : Nat} {sub : Read Fulfillment} {r : Reader}
  (hsub : Exact sub encode fun max g ↦ Admissible levels g ∧ g.fields.length ≤ max.toNat)
  (hsubs : ∀ g ∈ subs, Admissible levels g)
  (hmax : (arrangedFields subs conds).length ≤ r.maxLength.toNat)
  (hunread : r.unread = arrangedFields subs conds)

include hsub hsubs hmax hunread

/-- A first set that is out of order is refused, whatever comes after it. -/
theorem readThreshold_fails_of_subs
    (hsorted : ¬ subs.Pairwise fun f g ↦ Bytes.le f.encode g.encode = true) :
    Fails (readThreshold sub) r .nonCanonicalSetOrder := by
  obtain ⟨hset, -, hfields, -⟩ := fits_of_length_arrangedFields_le hmax
  refine (exact_expect rfl).bind_fails hunread hset (Fails.bind (Fails.within ?_) _)
  exact hsub.set_fails_of_not_pairwise encode_ne_nil rfl (fun g hg ↦ ⟨hsubs g hg, hfields g hg⟩)
    hsorted

variable (hsorted : subs.Pairwise fun f g ↦ Bytes.le f.encode g.encode = true)

include hsorted

/-- A first set in order is read, and the second one is next. -/
theorem readThreshold_of_subs :
    readThreshold sub r = (do
      let conds ← within (← expect (.contextConstructed 1)) (set Condition.read)
      construct (ofThreshold subs.length subs conds))
        (r.nested (encodeTlv (.contextConstructed 1) (conds.flatMap Condition.encode))) := by
  obtain ⟨hset, -, hfields, -⟩ := fits_of_length_arrangedFields_le hmax
  have hexpect := (exact_expect rfl).eq_ok_iff.mpr ⟨_, hunread, hset, rfl⟩
  have hread : Fills (set sub) (r.nested (subs.flatMap encode)) subs :=
    (hsub.set_fills_iff encode_ne_nil).mpr
      ⟨rfl, fun g hg ↦ ⟨hsubs g hg, hfields g hg⟩, hsorted⟩
  rw [readThreshold, bind_of_ok hexpect]
  exact bind_of_ok (within_eq_ok_iff.mpr ⟨hread, rfl⟩)

/-- A second set that is out of order is refused, whatever node there could be. -/
theorem readThreshold_fails_of_conds
    (hconds : ¬ conds.Pairwise fun c d ↦ Bytes.le c.encode d.encode = true) :
    Fails (readThreshold sub) r .nonCanonicalSetOrder := by
  obtain ⟨-, hset, -, hfields⟩ := fits_of_length_arrangedFields_le hmax
  rw [Fails, readThreshold_of_subs hsub hsubs hmax hunread hsorted]
  refine (exact_expect rfl).bind_fails (List.append_nil _).symm hset ?_
  refine Fails.bind (Fails.within ?_) _
  exact Condition.exact_read.set_fails_of_not_pairwise Condition.encode_ne_nil rfl hfields hconds

/-- Where both sets are in order, it is up to the constructor what comes of them. -/
theorem readThreshold_of_sorted
    (hconds : conds.Pairwise fun c d ↦ Bytes.le c.encode d.encode = true) :
    readThreshold sub r = construct (ofThreshold subs.length subs conds) (r.nested []) := by
  obtain ⟨-, hset, -, hfields⟩ := fits_of_length_arrangedFields_le hmax
  have hexpect : expect (.contextConstructed 1)
      (r.nested (encodeTlv (.contextConstructed 1) (conds.flatMap Condition.encode)))
        = .ok (conds.flatMap Condition.encode) (r.nested []) :=
    (exact_expect rfl).eq_ok_iff.mpr ⟨[], (List.append_nil _).symm, hset, rfl⟩
  have hread : Fills (set Condition.read) (r.nested (conds.flatMap Condition.encode)) conds :=
    (Condition.exact_read.set_fills_iff Condition.encode_ne_nil).mpr ⟨rfl, hfields, hconds⟩
  rw [readThreshold_of_subs hsub hsubs hmax hunread hsorted, bind_of_ok hexpect]
  exact bind_of_ok (within_eq_ok_iff.mpr ⟨hread, rfl⟩)

end Reading

/-! ## Decoding them -/

/-- Members without a descent in either list are in order. -/
theorem pairwise_of_not_descends
    (h : ¬ (Bytes.Descends (subs.map encode) ∨ Bytes.Descends (conds.map Condition.encode))) :
    (subs.Pairwise fun f g ↦ Bytes.le f.encode g.encode = true)
      ∧ conds.Pairwise fun c d ↦ Bytes.le c.encode d.encode = true := by
  rwa [Bytes.descends_map_iff, Bytes.descends_map_iff, not_or, Decidable.not_not,
    Decidable.not_not] at h

/-- The node takes up one level, and its members have the others. -/
theorem exists_levels_of_lt {maxDepth : Nat} (hsubs : ∀ sub ∈ subs, Constructible sub)
    (hdepth : depthOfAll subs < maxDepth) :
    ∃ levels, maxDepth = levels + 1 ∧ ∀ sub ∈ subs, Admissible levels sub := by
  obtain ⟨levels, rfl⟩ := Nat.exists_eq_succ_of_ne_zero (Nat.ne_zero_of_lt hdepth)
  refine ⟨levels, rfl, fun sub hsub ↦ ⟨hsubs sub hsub, ?_⟩⟩
  exact depthOfAll_le_iff.mp (Nat.le_of_lt_succ hdepth) sub hsub

section Decoding

variable {limits : Limits} (hmax : (arrangedFields subs conds).length ≤ limits.maxLength.toNat)

include hmax

/-- Under limits that admit the node, what goes wrong goes wrong with its fields. -/
theorem decode_encodeArranged_of_fails {levels : Nat} {e : DecodeError}
    (hlevels : limits.maxDepth = levels + 1)
    (hfields : Fails (readThreshold (read limits.maxDepth levels))
      ⟨arrangedFields subs conds, limits.maxLength⟩ e) :
    decode limits (encodeArranged subs conds) = .error e := by
  have hread : read limits.maxDepth limits.maxDepth
      = readNode limits.maxDepth (some (read limits.maxDepth levels)) :=
    congrArg (read limits.maxDepth) hlevels
  rw [decode, hread]
  apply Fails.run
  exact typed_within_fails (List.append_nil _).symm hmax hfields

variable (hsubs : ∀ sub ∈ subs, Constructible sub) (hdepth : depthOfAll subs < limits.maxDepth)

include hsubs hdepth

/-- Two neighbours that are out of order, in either set, are the error. -/
theorem decode_encodeArranged_of_descends
    (h : Bytes.Descends (subs.map encode) ∨ Bytes.Descends (conds.map Condition.encode)) :
    decode limits (encodeArranged subs conds) = .error .nonCanonicalSetOrder := by
  obtain ⟨levels, hlevels, hadmissible⟩ := exists_levels_of_lt hsubs hdepth
  rw [Bytes.descends_map_iff, Bytes.descends_map_iff] at h
  apply decode_encodeArranged_of_fails hmax hlevels
  by_cases hsorted : subs.Pairwise fun f g ↦ Bytes.le f.encode g.encode = true
  · have hconds := h.resolve_left (not_not_intro hsorted)
    exact readThreshold_fails_of_conds (exact_read _ _) hadmissible hmax rfl hsorted hconds
  · exact readThreshold_fails_of_subs (exact_read _ _) hadmissible hmax rfl hsorted

/-- Where there are no such neighbours, the constructor decides. -/
theorem decode_encodeArranged_of_not_descends
    (h : ¬ (Bytes.Descends (subs.map encode) ∨ Bytes.Descends (conds.map Condition.encode))) :
    decode limits (encodeArranged subs conds)
      = (ofThreshold subs.length subs conds).mapError .construction := by
  obtain ⟨levels, hlevels, hadmissible⟩ := exists_levels_of_lt hsubs hdepth
  obtain ⟨hsorted, hconds⟩ := pairwise_of_not_descends h
  cases hnode : ofThreshold subs.length subs conds with
  | ok f =>
    obtain ⟨-, c, -, rfl⟩ := (ofThreshold_eq_ok_iff_of_sorted hsorted hconds).mp hnode
    refine decode_eq_ok_iff.mpr ⟨(encode_threshold ..).symm, .ofThreshold hsubs hnode, hdepth, ?_⟩
    rw [fields_threshold]
    exact hmax
  | error e =>
    apply decode_encodeArranged_of_fails hmax hlevels
    rw [Fails, readThreshold_of_sorted (exact_read _ _) hadmissible hmax rfl hsorted hconds]
    exact fails_construct hnode _

end Decoding

/-! ## Main result -/

/-- As many branches as the threshold says leave the cost as the only cause of failure. -/
theorem eq_costOverflow_of_ofThreshold {e : ConstructionError} (hne : subs ≠ [])
    (h : ofThreshold subs.length subs conds = .error e) : e = .costOverflow := by
  have hzero : subs.length ≠ 0 := fun hlen ↦ hne (List.length_eq_zero_iff.mp hlen)
  rw [ofThreshold_eq_map hzero rfl (.refl _), Result.map_eq_error_iff] at h
  refine Condition.eq_costOverflow_of_ofThreshold hzero ?_ h
  rw [branches, List.length_append, List.length_map]
  exact Nat.le_add_right _ _

/-- Members that are in order have the arrangement that sorting gives them. -/
theorem encodeArranged_eq_of_perm {subs' : List Fulfillment} {conds' : List Condition}
    (hsubs : subs.Perm subs') (hconds : conds.Perm conds')
    (h : ¬ (Bytes.Descends (subs.map encode) ∨ Bytes.Descends (conds.map Condition.encode))) :
    encodeArranged subs conds
      = encodeArranged (Bytes.sortOn encode subs') (Condition.sort conds') := by
  obtain ⟨hsorted, hsortedConds⟩ := pairwise_of_not_descends h
  have hset : subs.flatMap encode = (Bytes.sortOn encode subs').flatMap encode := by
    rw [List.flatMap_def, List.flatMap_def, ← Bytes.map_sortOn_eq_of_perm hsubs,
      Bytes.sortOn_eq_self hsorted]
  have hsetConds : conds = Condition.sort conds' := by
    rw [← Condition.sort_eq_of_perm hconds, Condition.sort, Bytes.sortOn_eq_self hsortedConds]
  rw [encodeArranged, encodeArranged, arrangedFields, arrangedFields, hset, ← hsetConds]

/-- **Of all arrangements of the members, one is accepted.** It is the one in order, and what comes
of it is what the constructor makes of the members. -/
theorem decode_arranged {limits : Limits} (hne : subs ≠ [])
    (hsubs : ∀ sub ∈ subs, Constructible sub)
    (hmax : (arrangedFields subs conds).length ≤ limits.maxLength.toNat)
    (hdepth : depthOfAll subs < limits.maxDepth) :
    (Bytes.Descends (subs.map encode) ∨ Bytes.Descends (conds.map Condition.encode) →
        decode limits (encodeArranged subs conds) = .error .nonCanonicalSetOrder)
      ∧ (¬ (Bytes.Descends (subs.map encode) ∨ Bytes.Descends (conds.map Condition.encode)) →
          decode limits (encodeArranged subs conds)
            = (ofThreshold subs.length subs conds).mapError .construction)
      ∧ (∀ e, ofThreshold subs.length subs conds = .error e → e = .costOverflow)
      ∧ ∀ subs' conds' f, subs.Perm subs' → conds.Perm conds' →
          decode limits (encodeArranged subs conds) = .ok f →
          encodeArranged subs conds
            = encodeArranged (Bytes.sortOn encode subs') (Condition.sort conds') := by
  have hdescends := decode_encodeArranged_of_descends hmax hsubs hdepth
  refine ⟨hdescends, decode_encodeArranged_of_not_descends hmax hsubs hdepth,
    fun e ↦ eq_costOverflow_of_ofThreshold hne, fun subs' conds' f hperm hpermConds h ↦ ?_⟩
  refine encodeArranged_eq_of_perm hperm hpermConds fun hout ↦ ?_
  rw [hdescends hout] at h
  exact absurd h nofun

/-- Equal members may stand side by side. Turned around, the same members are out of order, in the
first set as in the second. A branch as dear as this leaves no room for the overhead. -/
theorem decode_arranged_preimages :
    (∃ f, decode {} (encodeArranged [ofPreimage [1], ofPreimage [1], ofPreimage [2]]
          [Condition.ofPreimage [3], Condition.ofPreimage [4]]) = .ok f
        ∧ ofThreshold 3 [ofPreimage [1], ofPreimage [1], ofPreimage [2]]
          [Condition.ofPreimage [3], Condition.ofPreimage [4]] = .ok f)
      ∧ decode {} (encodeArranged [ofPreimage [2], ofPreimage [1], ofPreimage [1]]
          [Condition.ofPreimage [3], Condition.ofPreimage [4]]) = .error .nonCanonicalSetOrder
      ∧ decode {} (encodeArranged [ofPreimage [1], ofPreimage [1], ofPreimage [2]]
          [Condition.ofPreimage [4], Condition.ofPreimage [3]]) = .error .nonCanonicalSetOrder
      ∧ ∃ sub, ofPrefix [] 0xfffffffffffffbff (ofPreimage []) = .ok sub
          ∧ decode {} (encodeArranged [sub] []) = .error (.construction .costOverflow) := by
  have hleaves : ∀ a b d : Bytes,
      ∀ sub ∈ [ofPreimage a, ofPreimage b, ofPreimage d], Constructible sub := by
    simp [Constructible.ofPreimage]
  refine ⟨?_, ?_, ?_, ?_⟩
  · obtain ⟨f, hf⟩ := Result.exists_eq_ok_of_isOk (by decide +kernel :
      (ofThreshold 3 [ofPreimage [1], ofPreimage [1], ofPreimage [2]]
        [Condition.ofPreimage [3], Condition.ofPreimage [4]]).isOk = true)
    refine ⟨f, ?_, hf⟩
    rw [(decode_arranged (List.cons_ne_nil _ _) (hleaves _ _ _) ?_ ?_).2.1 (by decide +kernel)]
    · exact congrArg (Except.mapError _) hf
    · decide +kernel
    · decide
  · apply (decode_arranged (List.cons_ne_nil _ _) (hleaves _ _ _) ?_ ?_).1
    · decide +kernel
    · decide +kernel
    · decide
  · apply (decode_arranged (List.cons_ne_nil _ _) (hleaves _ _ _) ?_ ?_).1
    · decide +kernel
    · decide +kernel
    · decide
  · have hmeasures : (ofPrefix [] 0xfffffffffffffbff (ofPreimage [])).map (fun sub ↦
        ((arrangedFields [sub] []).length, depthOfAll [sub], ofThreshold 1 [sub] []))
          = .ok (25, 1, .error .costOverflow) := by decide +kernel
    obtain ⟨sub, hsub, hmeasures⟩ := Result.map_eq_ok_iff.mp hmeasures
    simp only [Prod.mk.injEq] at hmeasures
    obtain ⟨hlength, hdepth, hoverflow⟩ := hmeasures
    refine ⟨sub, hsub, ?_⟩
    have hconstructible : ∀ g ∈ [sub], Constructible g := by
      simp [Constructible.ofPrefix (.ofPreimage _) hsub]
    rw [(decode_arranged (List.cons_ne_nil _ _) hconstructible ?_ ?_).2.1
      (by simp [Bytes.descends_iff])]
    · exact congrArg (Except.mapError _) hoverflow
    · rw [hlength]
      decide
    · rw [hdepth]
      decide

end Hashlock.Fulfillment
