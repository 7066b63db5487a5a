import Hashlock.Der.Writer
import Hashlock.Proofs.Der.Read
import Hashlock.Proofs.Integer

/-!
# Tag, length and value

A value is accepted precisely when the unread input starts with its one encoding and its length
is under the ceiling (`exact_tlv`). The lengths are where the work is: the reader takes a count and
folds digits, the writer takes the minimal bytes of a number, and the two meet in
`Integer.ofNat_value`.

The ceiling is a word, so an accepted length has at most eight digits, and no bound on the length
of values has to be assumed.
-/

namespace Hashlock.Der

/-! ## Sizes -/

theorem encodeTlv_ne_nil (t : Tag) (value : Bytes) : encodeTlv t value ≠ [] := nofun

theorem encodeLength_ne_nil (n : Nat) : encodeLength n ≠ [] := by
  rw [encodeLength]
  split
  · exact List.cons_ne_nil _ _
  · exact List.cons_ne_nil _ _

/-- A value stands behind a tag and a length, which take a byte each at least. -/
theorem length_add_two_le_length_encodeTlv (t : Tag) (value : Bytes) :
    value.length + 2 ≤ (encodeTlv t value).length := by
  have hpos := List.length_pos_iff.mpr (encodeLength_ne_nil value.length)
  rw [encodeTlv, List.length_cons, List.length_append]
  omega

/-- No value is longer than what stands around it. -/
theorem length_le_length_encodeTlv (t : Tag) (value : Bytes) :
    value.length ≤ (encodeTlv t value).length :=
  Nat.le_of_add_right_le (length_add_two_le_length_encodeTlv t value)

theorem length_encodeLength_le_iff {n : Nat} :
    (encodeLength n).length ≤ 9 ↔ n < UInt64.size := by
  rw [encodeLength]
  by_cases hshort : n < 0x80
  · rw [if_pos hshort]
    have hone : ([UInt8.ofNat n] : Bytes).length = 1 := rfl
    exact iff_of_true (by omega) (Nat.lt_trans hshort (by decide))
  · rw [if_neg hshort]
    have hsize : (Integer.ofNat n).length ≤ 8 ↔ n < UInt64.size := Integer.length_ofNat_le_iff
    exact Nat.succ_le_succ_iff.trans hsize

theorem length_encodeLength_le_of_le {n n' : Nat} (h : n ≤ n') :
    (encodeLength n).length ≤ (encodeLength n').length := by
  have hdigits : (Integer.ofNat n).length ≤ (Integer.ofNat n').length :=
    Integer.length_ofNat_le_iff.mpr
      (Nat.lt_of_le_of_lt h (Integer.length_ofNat_le_iff.mp (Nat.le_refl _)))
  rw [encodeLength, encodeLength]
  by_cases hshort : n < 0x80
  · rw [if_pos hshort]
    split
    · exact Nat.le_refl _
    · exact Nat.succ_le_succ (Nat.zero_le _)
  · rw [if_neg hshort, if_neg (by omega)]
    exact Nat.succ_le_succ hdigits

theorem length_encodeLength_le {k n : Nat} (h : n < 256 ^ k) : (encodeLength n).length ≤ k + 1 := by
  rw [encodeLength]
  split
  · exact Nat.succ_le_succ (Nat.zero_le _)
  · exact Nat.succ_le_succ (Integer.length_ofNat_le_iff.mpr h)

theorem length_encodeTlv_le {k : Nat} {t : Tag} {value : Bytes} (h : value.length < 256 ^ k) :
    (encodeTlv t value).length ≤ value.length + k + 2 := by
  have hlength := length_encodeLength_le h
  rw [encodeTlv, List.length_cons, List.length_append]
  omega

/-- Values of different lengths differ in the length of the whole, so a value can be told from the
whole, however long it is. -/
theorem eq_of_encodeTlv_eq {t : Tag} {value value' : Bytes}
    (h : encodeTlv t value = encodeTlv t value') : value = value' := by
  have hlen := congrArg List.length h
  rw [encodeTlv, encodeTlv, List.length_cons, List.length_cons, List.length_append,
    List.length_append] at hlen
  have heq : value.length = value'.length := by
    rcases Nat.lt_trichotomy value.length value'.length with hlt | heq | hgt
    · have hle := length_encodeLength_le_of_le (Nat.le_of_lt hlt)
      omega
    · exact heq
    · have hle := length_encodeLength_le_of_le (Nat.le_of_lt hgt)
      omega
  rw [encodeTlv, encodeTlv, heq] at h
  exact List.append_cancel_left (List.cons.inj h).2

/-- The short form is one byte, the length itself. -/
theorem encodeTlv_of_lt {t : Tag} {value : Bytes} (h : value.length < 0x80) :
    encodeTlv t value = t.byte :: UInt8.ofNat value.length :: value := by
  rw [encodeTlv, encodeLength, if_pos h]
  rfl

theorem length_encodeTlv_of_lt {t : Tag} {value : Bytes} (h : value.length < 0x80) :
    (encodeTlv t value).length = value.length + 2 := by
  rw [encodeTlv_of_lt h, List.length_cons, List.length_cons]

/-- Whether the length of a value is a word can be told from the whole. -/
theorem length_lt_of_encodeTlv_eq {t t' : Tag} {value value' : Bytes}
    (h : encodeTlv t value = encodeTlv t' value') (hword : value'.length < UInt64.size) :
    value.length < UInt64.size := by
  refine Decidable.byContradiction fun hlarge ↦ ?_
  have hshort := length_encodeLength_le_iff.mpr hword
  have hlong := Nat.not_le.mp (mt length_encodeLength_le_iff.mp hlarge)
  have hlen := congrArg List.length h
  rw [encodeTlv, encodeTlv, List.length_cons, List.length_cons, List.length_append,
    List.length_append] at hlen
  omega

/-- No member of a set is longer than the whole set. -/
theorem length_le_length_flatMap {α : Type} (encode : α → Bytes) {a : α} {as : List α}
    (ha : a ∈ as) : (encode a).length ≤ (as.flatMap encode).length := by
  have hsub := List.sublist_flatten_of_mem (List.mem_map_of_mem ha (f := encode))
  rw [List.flatMap_def]
  exact hsub.length_le

/-! ## The first byte of a length -/

/-- The long form marks its count of digits with the top bit, and nothing else. -/
theorem longForm_and (b : UInt8) (h : ¬ b < 0x80) : 0x80 ||| UInt8.ofNat (b &&& 0x7f).toNat = b := by
  obtain ⟨⟨b⟩⟩ := b
  revert b
  decide +kernel

theorem and_longForm {k : Nat} (h : k < 0x80) :
    ¬ (0x80 ||| UInt8.ofNat k) < 0x80 ∧ ((0x80 ||| UInt8.ofNat k) &&& 0x7f).toNat = k := by
  revert k
  decide +kernel

namespace Read

/-! ## Bytes and tags -/

theorem byte_eq_ok_iff {b : UInt8} {r r' : Reader} :
    byte r = .ok b r' ↔ ∃ rest, r.unread = b :: rest ∧ r' = r.nested rest := by
  rw [byte]
  cases r.unread with
  | nil => exact ⟨fun h ↦ absurd h nofun, fun ⟨_, h, _⟩ ↦ absurd h nofun⟩
  | cons c rest =>
    constructor
    · intro h
      obtain ⟨rfl, rfl⟩ := EStateM.Result.ok.inj h
      exact ⟨rest, rfl, rfl⟩
    · rintro ⟨rest', h, rfl⟩
      obtain ⟨rfl, rfl⟩ := List.cons.inj h
      rfl

theorem tag_eq_ok_iff {t : Tag} {r r' : Reader} :
    tag r = .ok t r' ↔ ∃ rest, r.unread = t.byte :: rest ∧ t.isLong = false ∧ r' = r.nested rest := by
  rw [tag, bind_eq_ok_iff]
  constructor
  · rintro ⟨b, r₁, hb, h⟩
    obtain ⟨rest, hunread, rfl⟩ := byte_eq_ok_iff.mp hb
    split at h
    · exact absurd h nofun
    · rename_i hlong
      obtain ⟨rfl, rfl⟩ := pure_eq_ok_iff.mp h
      exact ⟨rest, hunread, Bool.eq_false_iff.mpr hlong, rfl⟩
  · rintro ⟨rest, hunread, hlong, rfl⟩
    refine ⟨t.byte, _, byte_eq_ok_iff.mpr ⟨rest, hunread, rfl⟩, ?_⟩
    rw [if_neg (by rw [hlong]; decide), pure_apply]

/-! ## Lengths -/

/-- The digits of a length are the minimal bytes of a number that has no short form. -/
theorem longLength_eq_ok_iff {count n : Nat} {r r' : Reader} :
    longLength count r = .ok n r' ↔
      ∃ rest, r.unread = Integer.ofNat n ++ rest ∧ (Integer.ofNat n).length = count ∧ count ≤ 8
        ∧ 0x80 ≤ n ∧ r' = r.nested rest := by
  rw [longLength, bind_of_ok (get_apply r)]
  constructor
  · intro h
    split at h
    · exact absurd h nofun
    split at h
    · exact absurd h nofun
    split at h
    · exact absurd h nofun
    rename_i hfew henough
    have htake : take count r = .ok (r.unread.take count) (r.nested (r.unread.drop count)) := rfl
    rw [bind_of_ok htake] at h
    split at h
    · exact absurd h nofun
    rename_i hminimal
    obtain ⟨hhead, hlong⟩ := not_or.mp hminimal
    obtain ⟨rfl, rfl⟩ := pure_eq_ok_iff.mp h
    have hlen : (r.unread.take count).length = count :=
      List.length_take_of_le (Nat.not_lt.mp henough)
    have hword := Integer.toNat_word (Nat.le_trans (Nat.le_of_eq hlen) (Nat.not_lt.mp hfew))
    rw [hword] at hlong ⊢
    rw [Integer.ofNat_value hhead]
    exact ⟨_, (List.take_append_drop _ _).symm, hlen, Nat.not_lt.mp hfew, Nat.not_lt.mp hlong, rfl⟩
  · rintro ⟨rest, hunread, rfl, hfew, hlong, rfl⟩
    -- A count of zero stands for an indefinite length; zero has a short form.
    have hpos : (Integer.ofNat n).length ≠ 0 := by
      intro h
      have hval := Integer.value_ofNat n
      rw [List.length_eq_zero_iff.mp h, Integer.value_nil] at hval
      omega
    have henough : ¬ r.remaining < (Integer.ofNat n).length := by
      rw [Reader.remaining, hunread, List.length_append]
      omega
    have htake : take (Integer.ofNat n).length r = .ok (Integer.ofNat n) (r.nested rest) := by
      rw [take, hunread, List.take_left, List.drop_left]
      rfl
    rw [if_neg hpos, if_neg (Nat.not_lt.mpr hfew), if_neg henough, bind_of_ok htake]
    simp only [Integer.toNat_word hfew, Integer.value_ofNat]
    rw [if_neg (not_or.mpr ⟨Integer.head?_ofNat n, Nat.not_lt.mpr hlong⟩), pure_apply]

/-- The length that is declared, before it is held against the ceiling and the input. -/
def declaredLength : Read Nat := do
  let first ← byte
  if first < 0x80 then pure first.toNat else longLength (first &&& 0x7f).toNat

theorem length_eq :
    length = (do
      let declared ← declaredLength
      let r ← get
      if r.maxLength.toNat < declared then throw (.lengthTooLarge declared r.maxLength)
      else if r.remaining < declared then throw (.lengthExceedsInput declared r.remaining)
      else return declared) := by
  rw [length, declaredLength, bind_assoc]
  refine congrArg (byte >>= ·) (funext fun first ↦ ?_)
  by_cases hshort : first < 0x80
  · rw [if_pos hshort, if_pos hshort]
  · rw [if_neg hshort, if_neg hshort]

/-- A declared length is held against the ceiling first and then against the input. -/
theorem length_of_declared {n : Nat} {r : Reader} {rest : Bytes}
    (h : declaredLength r = .ok n (r.nested rest)) :
    length r
      = if r.maxLength.toNat < n then .error (.lengthTooLarge n r.maxLength) (r.nested rest)
        else if rest.length < n then .error (.lengthExceedsInput n rest.length) (r.nested rest)
        else .ok n (r.nested rest) := by
  rw [length_eq, bind_of_ok h, bind_of_ok (get_apply _)]
  by_cases hmax : r.maxLength.toNat < n
  · rw [if_pos hmax]
    exact congrFun (if_pos hmax) _
  · rw [if_neg hmax]
    refine (congrFun (if_neg hmax) _).trans ?_
    by_cases hinput : rest.length < n
    · rw [if_pos hinput]
      exact congrFun (if_pos hinput) _
    · rw [if_neg hinput]
      exact congrFun (if_neg hinput) _

/-- Every length below 2^64 is declared in one form only, that which `encodeLength` writes. -/
theorem declaredLength_eq_ok_iff {n : Nat} {r r' : Reader} :
    declaredLength r = .ok n r' ↔
      ∃ rest, r.unread = encodeLength n ++ rest ∧ n < UInt64.size ∧ r' = r.nested rest := by
  have hsize : (Integer.ofNat n).length ≤ 8 ↔ n < UInt64.size := Integer.length_ofNat_le_iff
  rw [declaredLength, bind_eq_ok_iff]
  constructor
  · rintro ⟨b, r₁, hb, h⟩
    obtain ⟨rest, hunread, rfl⟩ := byte_eq_ok_iff.mp hb
    split at h
    · rename_i hshort
      obtain ⟨rfl, rfl⟩ := pure_eq_ok_iff.mp h
      have hlt : b.toNat < 0x80 := UInt8.lt_iff_toNat_lt.mp hshort
      have hword : b.toNat < UInt64.size := Nat.lt_trans b.toNat_lt (by decide)
      rw [encodeLength, if_pos hlt, UInt8.ofNat_toNat]
      exact ⟨rest, hunread, hword, rfl⟩
    · rename_i hmark
      obtain ⟨rest', hrest, hcount, hfew, hlong, rfl⟩ := longLength_eq_ok_iff.mp h
      rw [Reader.unread_nested] at hrest
      rw [encodeLength, if_neg (Nat.not_lt.mpr hlong)]
      simp only [hcount, longForm_and b hmark]
      exact ⟨rest', by rw [hunread, hrest]; rfl, hsize.mp (hcount ▸ hfew), rfl⟩
  · rintro ⟨rest, hunread, hword, rfl⟩
    rw [encodeLength] at hunread
    split at hunread
    · rename_i hshort
      have hb : (UInt8.ofNat n).toNat = n := by
        rw [UInt8.toNat_ofNat']
        omega
      refine ⟨UInt8.ofNat n, _, byte_eq_ok_iff.mpr ⟨rest, hunread, rfl⟩, ?_⟩
      rw [if_pos (UInt8.lt_iff_toNat_lt.mpr (by rw [hb]; exact hshort)), hb, pure_apply]
    · rename_i hlong
      obtain ⟨hmark, hcount⟩ := and_longForm (Nat.lt_of_le_of_lt (hsize.mpr hword) (by decide))
      refine ⟨_, _, byte_eq_ok_iff.mpr ⟨Integer.ofNat n ++ rest, hunread, rfl⟩, ?_⟩
      rw [if_neg hmark, hcount]
      exact longLength_eq_ok_iff.mpr
        ⟨rest, rfl, rfl, hsize.mpr hword, Nat.not_lt.mp hlong, rfl⟩

theorem length_eq_ok_iff {n : Nat} {r r' : Reader} :
    length r = .ok n r' ↔
      ∃ rest, r.unread = encodeLength n ++ rest ∧ n ≤ r.maxLength.toNat ∧ n ≤ rest.length
        ∧ r' = r.nested rest := by
  constructor
  · intro h
    have hdeclared := h
    rw [length_eq] at hdeclared
    obtain ⟨declared, r₁, hd, -⟩ := bind_eq_ok_iff.mp hdeclared
    obtain ⟨rest, hunread, -, rfl⟩ := declaredLength_eq_ok_iff.mp hd
    rw [length_of_declared hd] at h
    split at h
    · exact absurd h nofun
    split at h
    · exact absurd h nofun
    rename_i hmax henough
    obtain ⟨rfl, rfl⟩ := EStateM.Result.ok.inj h
    exact ⟨rest, hunread, Nat.not_lt.mp hmax, Nat.not_lt.mp henough, rfl⟩
  · rintro ⟨rest, hunread, hmax, henough, rfl⟩
    -- The ceiling is a word, so the length has at most eight digits.
    have hword : n < UInt64.size := Nat.lt_of_le_of_lt hmax r.maxLength.toNat_lt
    rw [length_of_declared (declaredLength_eq_ok_iff.mpr ⟨rest, hunread, hword, rfl⟩),
      if_neg (Nat.not_lt.mpr hmax), if_neg (Nat.not_lt.mpr henough)]

/-! ## Values -/

/-- A value under its tag is accepted in one form only. -/
theorem exact_tlv :
    Exact tlv (fun p ↦ encodeTlv p.1 p.2)
      (fun max p ↦ p.1.isLong = false ∧ p.2.length ≤ max.toNat) := by
  refine ⟨fun {r r' p} ↦ ?_⟩
  obtain ⟨t, value⟩ := p
  constructor
  · intro h
    rw [tlv] at h
    obtain ⟨t₁, r₁, ht, h⟩ := bind_eq_ok_iff.mp h
    obtain ⟨rest, htag, hlong, rfl⟩ := tag_eq_ok_iff.mp ht
    obtain ⟨n, r₂, hn, h⟩ := bind_eq_ok_iff.mp h
    obtain ⟨rest', hlength, hmax, henough, rfl⟩ := length_eq_ok_iff.mp hn
    have htake : take n ((r.nested rest).nested rest')
        = .ok (rest'.take n) (r.nested (rest'.drop n)) := rfl
    rw [bind_of_ok htake, pure_eq_ok_iff, Prod.mk.injEq] at h
    obtain ⟨⟨rfl, rfl⟩, rfl⟩ := h
    have hn : (rest'.take n).length = n := List.length_take_of_le henough
    refine ⟨rest'.drop n, ?_, ⟨hlong, by rw [hn]; exact hmax⟩, rfl⟩
    rw [Reader.unread_nested] at hlength
    simp only [encodeTlv, hn, htag, hlength, List.cons_append, List.append_assoc,
      List.take_append_drop]
  · rintro ⟨rest, hunread, ⟨hlong, hmax⟩, rfl⟩
    simp only [encodeTlv, List.cons_append, List.append_assoc] at hunread
    have ht := tag_eq_ok_iff.mpr ⟨_, hunread, hlong, rfl⟩
    have hn : length (r.nested (encodeLength value.length ++ (value ++ rest)))
        = .ok value.length (r.nested (value ++ rest)) :=
      length_eq_ok_iff.mpr ⟨_, rfl, hmax, by rw [List.length_append]; omega, rfl⟩
    have htake : take value.length (r.nested (value ++ rest)) = .ok value (r.nested rest) := by
      rw [take, Reader.unread_nested, List.take_left, List.drop_left]
      rfl
    rw [tlv, bind_of_ok ht, bind_of_ok hn, bind_of_ok htake, pure_apply]

/-- A declared length above the ceiling is reported before the input is looked at. -/
theorem tlv_fails_of_lt {t : Tag} {value rest : Bytes} {r : Reader}
    (hunread : r.unread = encodeTlv t value ++ rest) (hlong : t.isLong = false)
    (hword : value.length < UInt64.size) (hlarge : r.maxLength.toNat < value.length) :
    Fails tlv r (.lengthTooLarge value.length r.maxLength) := by
  rw [encodeTlv, List.cons_append, List.append_assoc] at hunread
  rw [tlv]
  refine Fails.bind_of_ok (tag_eq_ok_iff.mpr ⟨_, hunread, hlong, rfl⟩) (Fails.bind ?_ _)
  rw [Fails, length_of_declared (declaredLength_eq_ok_iff.mpr ⟨_, rfl, hword, rfl⟩)]
  exact ⟨_, if_pos hlarge⟩

/-- What stands under a given tag is accepted in one form only. -/
theorem exact_expect {t : Tag} (hlong : t.isLong = false) :
    Exact (expect t) (encodeTlv t) (fun max value ↦ value.length ≤ max.toNat) := by
  refine ⟨fun {r r' value} ↦ ?_⟩
  rw [expect, bind_eq_ok_iff]
  constructor
  · rintro ⟨⟨t', value'⟩, r₁, htlv, h⟩
    obtain ⟨rest, hunread, ⟨-, hmax⟩, rfl⟩ := exact_tlv.eq_ok_iff.mp htlv
    simp only at h
    split at h
    · rename_i heq
      obtain ⟨rfl, rfl⟩ := pure_eq_ok_iff.mp h
      exact ⟨rest, by rw [hunread, heq], hmax, rfl⟩
    · exact absurd h nofun
  · rintro ⟨rest, hunread, hmax, rfl⟩
    refine ⟨(t, value), _, exact_tlv.eq_ok_iff.mpr ⟨rest, hunread, ⟨hlong, hmax⟩, rfl⟩, ?_⟩
    simp only [if_pos, pure_apply]

/-- Where a value of a word's length ends can be told from its tag and length. -/
theorem encodeTlv_append_inj {t : Tag} (hlong : t.isLong = false)
    {value value' rest rest' : Bytes}
    (h : encodeTlv t value ++ rest = encodeTlv t value' ++ rest')
    (hword : value.length < UInt64.size) (hword' : value'.length < UInt64.size) :
    value = value' ∧ rest = rest' := by
  have hmax : (UInt64.ofNat (UInt64.size - 1)).toNat = UInt64.size - 1 := by decide
  refine (exact_expect hlong).append_inj (UInt64.ofNat (UInt64.size - 1)) h ?_ ?_
  · rw [hmax]
    omega
  · rw [hmax]
    omega

theorem field_eq_ok_iff {α : Type} {t : Tag} (hlong : t.isLong = false)
    {parse : Bytes → Except DecodeError α} {a : α} {r r' : Reader} :
    field t parse r = .ok a r' ↔
      ∃ content rest, r.unread = encodeTlv t content ++ rest
        ∧ content.length ≤ r.maxLength.toNat ∧ parse content = .ok a ∧ r' = r.nested rest := by
  rw [field, bind_eq_ok_iff]
  constructor
  · rintro ⟨content, r₁, hexpect, h⟩
    obtain ⟨rest, hunread, hmax, rfl⟩ := (exact_expect hlong).eq_ok_iff.mp hexpect
    obtain ⟨hparse, rfl⟩ := ofExcept_eq_ok_iff.mp h
    exact ⟨content, rest, hunread, hmax, hparse, rfl⟩
  · rintro ⟨content, rest, hunread, hmax, hparse, rfl⟩
    exact ⟨content, _, (exact_expect hlong).eq_ok_iff.mpr ⟨rest, hunread, hmax, rfl⟩,
      ofExcept_eq_ok_iff.mpr ⟨hparse, rfl⟩⟩

/-- A field is exact when its content is accepted in one form only. -/
theorem exact_field {α : Type} {t : Tag} (hlong : t.isLong = false)
    {parse : Bytes → Except DecodeError α} {encode : α → Bytes}
    (hparse : ∀ {content a}, parse content = .ok a ↔ content = encode a) :
    Exact (field t parse) (fun a ↦ encodeTlv t (encode a))
      (fun max a ↦ (encode a).length ≤ max.toNat) := by
  refine ⟨fun {r r' a} ↦ ?_⟩
  rw [field_eq_ok_iff hlong]
  constructor
  · rintro ⟨content, rest, hunread, hmax, h, rfl⟩
    obtain rfl := hparse.mp h
    exact ⟨rest, hunread, hmax, rfl⟩
  · rintro ⟨rest, hunread, hmax, rfl⟩
    exact ⟨encode a, rest, hunread, hmax, hparse.mpr rfl, rfl⟩

end Read

end Hashlock.Der
