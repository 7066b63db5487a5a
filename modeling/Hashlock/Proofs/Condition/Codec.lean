import Hashlock.Condition.Decoding
import Hashlock.Condition.Encoding
import Hashlock.Proofs.Der.Tlv
import Hashlock.Proofs.Kind.Set

/-!
# Reading conditions

The decoder of conditions accepts the encodings of conditions whose content is under the ceiling,
and nothing else (`Condition.exact_read`). Every field is exact by itself; what is added here is
that the parts which are read make up a condition precisely when they are the parts of one.

Parts that make up no condition can be written all the same: a compound kind among its own subtypes
has a canonical form on the wire. It is up to the constructor to refuse it, so reading the fields of
any parts is reduced to constructing from them (`readFields_fieldsOf`), whether that succeeds or not.
-/

namespace Hashlock

/-! ## Outer tags -/

namespace Kind

theorem isLong_tag (k : Kind) : k.tag.isLong = false := by
  cases k <;> rfl

/-- The tag of each kind stands for that kind only, and no other tag for any. -/
theorem ofTag_eq_ok_iff {t : Der.Tag} {k : Kind} : ofTag t = .ok k ↔ t = k.tag := by
  constructor
  · intro h
    obtain ⟨⟨⟨b⟩⟩⟩ := t
    revert h
    cases k <;> revert b <;> decide +kernel
  · rintro rfl
    exact ofTag_tag k

end Kind

namespace Der.Read

/-- A value whose tag gives a kind is accepted in one form only. -/
theorem exact_typed :
    Exact typed (fun p ↦ encodeTlv p.1.tag p.2) (fun max p ↦ p.2.length ≤ max.toNat) := by
  refine ⟨fun {r r' p} ↦ ?_⟩
  obtain ⟨k, value⟩ := p
  rw [typed, bind_eq_ok_iff]
  constructor
  · rintro ⟨⟨t, value'⟩, r₁, htlv, h⟩
    obtain ⟨rest, hunread, ⟨-, hmax⟩, rfl⟩ := exact_tlv.eq_ok_iff.mp htlv
    obtain ⟨k', r₂, hk, h⟩ := bind_eq_ok_iff.mp h
    rw [ofExcept_eq_ok_iff, Kind.ofTag_eq_ok_iff] at hk
    obtain ⟨rfl, rfl⟩ := hk
    rw [pure_eq_ok_iff, Prod.mk.injEq] at h
    obtain ⟨⟨rfl, rfl⟩, rfl⟩ := h
    exact ⟨rest, hunread, hmax, rfl⟩
  · rintro ⟨rest, hunread, hmax, rfl⟩
    refine ⟨(k.tag, value), _, exact_tlv.eq_ok_iff.mpr ⟨rest, hunread, ⟨k.isLong_tag, hmax⟩, rfl⟩, ?_⟩
    exact bind_of_ok (ofExcept_eq_ok_iff.mpr ⟨Kind.ofTag_tag k, rfl⟩)

/-- A node whose kind stands in its tag is read exactly if its fields are read from the fields of
such a node. -/
theorem exact_typed_within {α : Type} {m : Kind → Read α} {kind : α → Kind} {fields : α → Bytes}
    {P : α → Prop}
    (hm : ∀ {k r a}, r.unread.length ≤ r.maxLength.toNat →
      (Fills (m k) r a ↔ kind a = k ∧ P a ∧ r.unread = fields a)) :
    Exact (typed >>= fun p ↦ within p.2 (m p.1)) (fun a ↦ encodeTlv (kind a).tag (fields a))
      (fun max a ↦ P a ∧ (fields a).length ≤ max.toNat) := by
  refine ⟨fun {r r' a} ↦ ?_⟩
  rw [bind_eq_ok_iff]
  constructor
  · rintro ⟨⟨k, value⟩, r₁, htyped, h⟩
    obtain ⟨rest, hunread, hmax, rfl⟩ := exact_typed.eq_ok_iff.mp htyped
    obtain ⟨hfills, rfl⟩ := within_eq_ok_iff.mp h
    obtain ⟨rfl, ha, rfl⟩ := (hm hmax).mp hfills
    exact ⟨rest, hunread, ⟨ha, hmax⟩, rfl⟩
  · rintro ⟨rest, hunread, ⟨ha, hmax⟩, rfl⟩
    refine ⟨(kind a, fields a), _, exact_typed.eq_ok_iff.mpr ⟨rest, hunread, hmax, rfl⟩, ?_⟩
    exact within_eq_ok_iff.mpr ⟨(hm hmax).mpr ⟨rfl, ha, rfl⟩, rfl⟩

/-- What is wrong with the fields of a node is wrong with the node. -/
theorem typed_within_fails {α : Type} {m : Kind → Read α} {k : Kind} {fields rest : Bytes}
    {r : Reader} {e : DecodeError} (hunread : r.unread = encodeTlv k.tag fields ++ rest)
    (hmax : fields.length ≤ r.maxLength.toNat) (hm : Fails (m k) (r.nested fields) e) :
    Fails (typed >>= fun p ↦ within p.2 (m p.1)) r e :=
  exact_typed.bind_fails (a := (k, fields)) hunread hmax (Fails.within hm)

end Der.Read

/-! ## The fields of a condition -/

/-- Costs and message lengths both stand in the second field. -/
theorem Der.Read.exact_word :
    Exact (field (.context 1) Integer.decodeUInt64)
      (fun n ↦ encodeTlv (.context 1) (Integer.encodeUInt64 n))
      (fun max n ↦ (Integer.encodeUInt64 n).length ≤ max.toNat) :=
  exact_field rfl Integer.decodeUInt64_eq_ok_iff

theorem Fingerprint.ofField_eq_ok_iff {content : Bytes} {f : Fingerprint} :
    Fingerprint.ofField content = .ok f ↔ content = f.bytes := by
  constructor
  · intro h
    rw [ofField] at h
    split at h
    · rename_i f' hbytes
      obtain ⟨b, hb, rfl⟩ := Option.map_eq_some_iff.mp hbytes
      rw [FixedBytes.ofBytes?_eq_some_iff.mp hb, ← Except.ok.inj h]
    · exact absurd h nofun
  · rintro rfl
    rw [ofField, ofBytes?_bytes]

namespace Condition

open Der Read

/-- Parts make up a condition precisely when they are the parts of it. -/
theorem ofParts_eq_ok_iff {kind : Kind} {fingerprint : Fingerprint} {cost : UInt64}
    {subtypes : KindSet} {c : Condition} :
    ofParts kind fingerprint cost subtypes = .ok c ↔
      c.kind = kind ∧ c.fingerprint = fingerprint ∧ c.cost = cost ∧ c.subtypes = subtypes := by
  constructor
  · intro h
    rw [ofParts] at h
    split at h
    · cases h
    split at h
    · cases h
    rw [← Except.ok.inj h]
    exact ⟨rfl, rfl, rfl, rfl⟩
  · rintro ⟨rfl, rfl, rfl, rfl⟩
    exact ofParts_self c

/-- Parts make up a condition unless they break one of its two rules. -/
theorem exists_ofParts_eq_ok_iff {kind : Kind} {fingerprint : Fingerprint} {cost : UInt64}
    {subtypes : KindSet} :
    (∃ c, ofParts kind fingerprint cost subtypes = .ok c) ↔
      (kind.isCompound = false → subtypes = ∅) ∧ kind ∉ subtypes := by
  constructor
  · rintro ⟨c, h⟩
    obtain ⟨rfl, -, -, rfl⟩ := ofParts_eq_ok_iff.mp h
    exact ⟨c.subtypes_of_simple, c.kind_not_mem_subtypes⟩
  · rintro ⟨hsimple, hown⟩
    exact ⟨⟨kind, fingerprint, cost, subtypes, hsimple, hown⟩,
      ofParts_eq_ok_iff.mpr ⟨rfl, rfl, rfl, rfl⟩⟩

/-- The field for subtypes, which simple kinds do not have. -/
def subtypesField (kind : Kind) (subtypes : KindSet) : Bytes :=
  if kind.isCompound then encodeTlv (.context 2) subtypes.encode else []

/-- The fields of parts, whether or not they make up a condition. -/
def fieldsOf (kind : Kind) (fingerprint : Fingerprint) (cost : UInt64) (subtypes : KindSet) :
    Bytes :=
  encodeTlv (.context 0) fingerprint.bytes
    ++ (encodeTlv (.context 1) (Integer.encodeUInt64 cost) ++ subtypesField kind subtypes)

theorem fields_eq (c : Condition) :
    c.fields = fieldsOf c.kind c.fingerprint c.cost c.subtypes := by
  rw [fields, List.append_assoc]
  rfl

theorem encode_ne_nil (c : Condition) : c.encode ≠ [] := encodeTlv_ne_nil _ _

theorem fields_length_le (c : Condition) : c.fields.length ≤ c.encode.length :=
  length_le_length_encodeTlv _ _

theorem length_subtypesField (kind : Kind) (subtypes : KindSet) :
    (subtypesField kind subtypes).length
      = if kind.isCompound then subtypes.encode.length + 2 else 0 := by
  have hencode := subtypes.length_encode_le
  rw [subtypesField]
  split
  · exact length_encodeTlv_of_lt (by omega)
  · rfl

/-- Only costs and subtypes take more or less room. -/
theorem length_fields (c : Condition) :
    c.fields.length = 36 + (Integer.encodeUInt64 c.cost).length
      + (subtypesField c.kind c.subtypes).length := by
  have hfingerprint : c.fingerprint.bytes.length = 32 := c.fingerprint.length_bytes
  have hcost := Integer.length_encodeUInt64_le c.cost
  rw [fields_eq, fieldsOf, List.length_append, List.length_append,
    length_encodeTlv_of_lt (by omega), length_encodeTlv_of_lt (by omega)]
  omega

/-- Conditions are small: their fields take the short form of a length. -/
theorem fields_length_lt (c : Condition) : c.fields.length < 0x80 := by
  have hcost := Integer.length_encodeUInt64_le c.cost
  have hencode := c.subtypes.length_encode_le
  rw [length_fields, length_subtypesField]
  split <;> omega

theorem exact_fingerprint :
    Exact (field (.context 0) Fingerprint.ofField) (fun f ↦ encodeTlv (.context 0) f.bytes)
      (fun max f ↦ f.bytes.length ≤ max.toNat) :=
  exact_field rfl Fingerprint.ofField_eq_ok_iff

/-- Read the subtypes, if the kind has any. -/
def readSubtypes (kind : Kind) : Read KindSet :=
  if kind.isCompound then field (.context 2) KindSet.decode else pure ∅

theorem readFields_eq (kind : Kind) :
    readFields kind = (do
      let fingerprint ← field (.context 0) Fingerprint.ofField
      let cost ← field (.context 1) Integer.decodeUInt64
      let subtypes ← readSubtypes kind
      finish
      construct (ofParts kind fingerprint cost subtypes)) := by
  unfold readFields readSubtypes
  cases kind.isCompound <;> rfl

theorem exact_readSubtypes (kind : Kind) :
    Exact (readSubtypes kind) (subtypesField kind)
      (fun max s ↦ (kind.isCompound = false → s = ∅)
        ∧ (kind.isCompound = true → s.encode.length ≤ max.toNat)) := by
  refine ⟨fun {r r' s} ↦ ?_⟩
  unfold readSubtypes subtypesField
  cases hkind : kind.isCompound with
  | true =>
    rw [if_pos rfl, (exact_field rfl KindSet.decode_eq_ok_iff).eq_ok_iff]
    simp
  | false =>
    rw [if_neg Bool.false_ne_true, pure_eq_ok_iff]
    constructor
    · rintro ⟨rfl, rfl⟩
      exact ⟨r'.unread, rfl, ⟨fun _ ↦ rfl, nofun⟩, rfl⟩
    · rintro ⟨rest, hunread, ⟨hempty, -⟩, rfl⟩
      have hrest : r.unread = rest := hunread
      exact ⟨(hempty rfl).symm, by rw [← hrest, Reader.nested_unread]⟩

/-- What fits under a ceiling has fields that do. -/
theorem fits_of_length_fieldsOf_le {kind : Kind} {fingerprint : Fingerprint} {cost : UInt64}
    {subtypes : KindSet} {max : Nat} (h : (fieldsOf kind fingerprint cost subtypes).length ≤ max) :
    fingerprint.bytes.length ≤ max ∧ (Integer.encodeUInt64 cost).length ≤ max
      ∧ (kind.isCompound = true → subtypes.encode.length ≤ max) := by
  have hfingerprint := length_le_length_encodeTlv (.context 0) fingerprint.bytes
  have hcost := length_le_length_encodeTlv (.context 1) (Integer.encodeUInt64 cost)
  rw [fieldsOf, List.length_append, List.length_append] at h
  refine ⟨by omega, by omega, fun hkind ↦ ?_⟩
  have hsubtypes := length_le_length_encodeTlv (.context 2) subtypes.encode
  rw [subtypesField, if_pos hkind] at h
  omega

/-- Where the fields of parts are all that is left, it is up to the parts what comes of them. -/
theorem readFields_fieldsOf {kind : Kind} {fingerprint : Fingerprint} {cost : UInt64}
    {subtypes : KindSet} {r : Reader} (hsimple : kind.isCompound = false → subtypes = ∅)
    (hmax : r.unread.length ≤ r.maxLength.toNat)
    (hunread : r.unread = fieldsOf kind fingerprint cost subtypes) :
    readFields kind r = construct (ofParts kind fingerprint cost subtypes) (r.nested []) := by
  rw [hunread] at hmax
  obtain ⟨hfingerprint, hcost, hsubtypes⟩ := fits_of_length_fieldsOf_le hmax
  have hfirst := exact_fingerprint.eq_ok_iff.mpr ⟨_, hunread, hfingerprint, rfl⟩
  have hsecond {rest : Bytes} : field (.context 1) Integer.decodeUInt64
      (r.nested (encodeTlv (.context 1) (Integer.encodeUInt64 cost) ++ rest))
        = .ok cost (r.nested rest) :=
    exact_word.eq_ok_iff.mpr ⟨rest, rfl, hcost, rfl⟩
  have hthird : readSubtypes kind (r.nested (subtypesField kind subtypes))
      = .ok subtypes (r.nested []) :=
    (exact_readSubtypes kind).eq_ok_iff.mpr
      ⟨[], (List.append_nil _).symm, ⟨hsimple, hsubtypes⟩, rfl⟩
  have hend : finish (r.nested []) = .ok () (r.nested []) := finish_eq_ok_iff.mpr ⟨rfl, rfl⟩
  rw [readFields_eq, bind_of_ok hfirst, bind_of_ok hsecond, bind_of_ok hthird, bind_of_ok hend]

/-- The fields of a kind are read from the fields of a condition of that kind. -/
theorem readFields_fills_iff {kind : Kind} {r : Reader} {c : Condition}
    (hmax : r.unread.length ≤ r.maxLength.toNat) :
    Fills (readFields kind) r c ↔ c.kind = kind ∧ r.unread = c.fields := by
  constructor
  · rw [readFields_eq, exact_fingerprint.bind_fills_iff]
    rintro ⟨fingerprint, rest₁, hunread₁, -, h⟩
    obtain ⟨cost, rest₂, hunread₂, -, h⟩ := exact_word.bind_fills_iff.mp h
    obtain ⟨subtypes, rest₃, hunread₃, -, h⟩ := (exact_readSubtypes kind).bind_fills_iff.mp h
    obtain ⟨hnil, h⟩ := finish_bind_fills_iff.mp h
    obtain ⟨hparts, -⟩ := construct_fills_iff.mp h
    obtain ⟨rfl, rfl, rfl, rfl⟩ := ofParts_eq_ok_iff.mp hparts
    rw [Reader.unread_nested] at hunread₂ hunread₃ hnil
    refine ⟨rfl, ?_⟩
    rw [hunread₁, hunread₂, hunread₃, hnil, List.append_nil, fields_eq, fieldsOf]
  · rintro ⟨rfl, hunread⟩
    rw [fields_eq] at hunread
    refine ⟨r.nested [], ?_, rfl⟩
    rw [readFields_fieldsOf c.subtypes_of_simple hmax hunread, construct_eq_ok_iff]
    exact ⟨ofParts_self c, rfl⟩

/-- **Conditions are read exactly.** -/
theorem exact_read :
    Exact read encode (fun max c ↦ c.fields.length ≤ max.toNat) := by
  have hread := exact_typed_within (m := readFields) (P := fun _ ↦ True) fun {k r c} hmax ↦ by
    rw [readFields_fills_iff hmax, true_and]
  simp only [true_and] at hread
  exact hread

/-- What follows the encoding of a condition is told apart from it. -/
theorem encode_append_inj {c d : Condition} {s t : Bytes} (h : c.encode ++ s = d.encode ++ t) :
    c = d ∧ s = t :=
  exact_read.append_inj 0x80 h (Nat.le_of_lt c.fields_length_lt)
    (Nat.le_of_lt d.fields_length_lt)

theorem encode_injective : Function.Injective encode := by
  intro c d h
  exact (encode_append_inj (congrArg (· ++ []) h)).1

/-- Conditions one after the other can be cut apart in one way only. -/
theorem eq_of_flatMap_encode_eq {cs ds : List Condition}
    (h : cs.flatMap encode = ds.flatMap encode) : cs = ds :=
  exact_read.flatMap_inj encode_ne_nil 0x80 h (fun c _ ↦ Nat.le_of_lt c.fields_length_lt)
    fun d _ ↦ Nat.le_of_lt d.fields_length_lt

theorem decode_eq_ok_iff {limits : Limits} {bs : Bytes} {c : Condition} :
    decode limits bs = .ok c ↔ bs = c.encode ∧ c.fields.length ≤ limits.maxLength.toNat := by
  rw [decode, run_eq_ok_iff, exact_read.fills_iff]

/-! ## Parts that make up no condition -/

/-- What parts look like when they are written, whether or not they make up a condition. -/
def encodeParts (kind : Kind) (fingerprint : Fingerprint) (cost : UInt64) (subtypes : KindSet) :
    Bytes :=
  encodeTlv kind.tag (fieldsOf kind fingerprint cost subtypes)

/-- A refusal of the parts is the result of reading them. -/
theorem read_fails {kind : Kind} {fingerprint : Fingerprint} {cost : UInt64} {subtypes : KindSet}
    {r : Reader} {e : ConstructionError} (hsimple : kind.isCompound = false → subtypes = ∅)
    (hmax : (fieldsOf kind fingerprint cost subtypes).length ≤ r.maxLength.toNat)
    (hunread : r.unread = encodeParts kind fingerprint cost subtypes)
    (h : ofParts kind fingerprint cost subtypes = .error e) : Fails read r (.construction e) := by
  rw [← List.append_nil (encodeParts ..)] at hunread
  refine typed_within_fails hunread hmax ?_
  rw [Fails, readFields_fieldsOf hsimple hmax rfl]
  exact fails_construct h _

/-- Written parts are put together by the constructor that callers use, whose error is the
decoder's. -/
theorem decode_encodeParts {limits : Limits} {kind : Kind} {fingerprint : Fingerprint}
    {cost : UInt64} {subtypes : KindSet} (hsimple : kind.isCompound = false → subtypes = ∅)
    (hmax : (fieldsOf kind fingerprint cost subtypes).length ≤ limits.maxLength.toNat) :
    decode limits (encodeParts kind fingerprint cost subtypes)
      = (ofParts kind fingerprint cost subtypes).mapError .construction := by
  cases h : ofParts kind fingerprint cost subtypes with
  | ok c =>
    obtain ⟨rfl, rfl, rfl, rfl⟩ := ofParts_eq_ok_iff.mp h
    rw [← fields_eq] at hmax
    refine decode_eq_ok_iff.mpr ⟨?_, hmax⟩
    rw [encodeParts, encode, fields_eq]
  | error e => exact (read_fails hsimple hmax rfl h).run

/-! ## Main result -/

/-- **Conditions are decoded from their own encodings only.** Parts make up a condition unless they
break one of two rules; where they do, reading them back fails as putting them together does. -/
theorem decode_exact (limits : Limits) (bs : Bytes) :
    (∀ kind fingerprint cost subtypes,
        (∃ c, ofParts kind fingerprint cost subtypes = .ok c) ↔
          (kind.isCompound = false → subtypes = ∅) ∧ kind ∉ subtypes)
      ∧ (∀ kind fingerprint cost subtypes c, ofParts kind fingerprint cost subtypes = .ok c →
          (decode limits bs = .ok c ↔
            bs = c.encode ∧ c.fields.length ≤ limits.maxLength.toNat))
      ∧ (∀ c, decode limits bs = .ok c →
          ofParts c.kind c.fingerprint c.cost c.subtypes = .ok c)
      ∧ ∀ kind fingerprint cost subtypes, (kind.isCompound = false → subtypes = ∅) →
          (fieldsOf kind fingerprint cost subtypes).length ≤ limits.maxLength.toNat →
          decode limits (encodeParts kind fingerprint cost subtypes)
            = (ofParts kind fingerprint cost subtypes).mapError .construction := by
  refine ⟨?_, ?_, ?_, ?_⟩
  · intro kind fingerprint cost subtypes
    exact exists_ofParts_eq_ok_iff
  · intro kind fingerprint cost subtypes c _
    exact decode_eq_ok_iff
  · intro c _
    exact ofParts_self c
  · intro kind fingerprint cost subtypes hsimple hmax
    exact decode_encodeParts hsimple hmax

/-- A prefix condition without subtypes, whose cost has a byte in front to keep it from reading as
negative: 41 bytes of content. And one that lists its own kind. -/
theorem decode_prefixed :
    (∃ c, ofParts .prefixed (.digest []) 0x80 ∅ = .ok c
        ∧ decode ⟨41, 0⟩ ([0xa1, 0x29, 0x80, 0x20] ++ (Fingerprint.digest []).bytes
            ++ [0x81, 0x02, 0x00, 0x80, 0x82, 0x01, 0x00]) = .ok c
        ∧ decode ⟨40, 0⟩ c.encode ≠ .ok c)
      ∧ decode ⟨42, 0⟩ (encodeParts .prefixed (.digest []) 0x80 (.singleton .prefixed))
          = .error (.construction (.ownKindInSubtypes .prefixed)) := by
  constructor
  · obtain ⟨hparts, hdecode, -⟩ := decode_exact ⟨41, 0⟩ <|
      [0xa1, 0x29, 0x80, 0x20] ++ (Fingerprint.digest []).bytes
        ++ [0x81, 0x02, 0x00, 0x80, 0x82, 0x01, 0x00]
    obtain ⟨c, hc⟩ := (hparts .prefixed (.digest []) 0x80 ∅).mpr (by decide)
    obtain ⟨hkind, hfingerprint, hcost, hsubtypes⟩ := ofParts_eq_ok_iff.mp hc
    have hfields : c.fields = fieldsOf .prefixed (.digest []) 0x80 ∅ := by
      rw [fields_eq, hkind, hfingerprint, hcost, hsubtypes]
    refine ⟨c, hc, (hdecode _ _ _ _ c hc).mpr ?_, fun h ↦ ?_⟩
    · rw [encode, hkind, hfields]
      decide +kernel
    · obtain ⟨-, hmax⟩ := ((decode_exact ⟨40, 0⟩ c.encode).2.1 _ _ _ _ c hc).mp h
      rw [hfields] at hmax
      exact absurd hmax (by decide +kernel)
  · refine ((decode_exact ⟨42, 0⟩ []).2.2.2 _ _ _ _ (by decide) (by decide +kernel)).trans ?_
    decide +kernel

end Condition

end Hashlock
