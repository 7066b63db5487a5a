import Hashlock.Proofs.Der.Tlv

/-!
# Forms of a length

A definite length can be written in many ways: the long form has room for leading zeros, and small
lengths have a long form too. `LengthForm` lists all of them, apart from any reader or writer. The
writer takes the shortest one (`LengthForm.eq_or_lt`), and no form is the beginning of another
(`LengthForm.append_inj`), so what stands in front of a value tells its length.

Of all forms the reader accepts the shortest alone. What it does with any of them is one chain of
tests, in the order in which they are made (`tlv_of_lengthForm`): too many digits, more digits than
needed, a length above the ceiling, a length above the input.

## Words

The digits are shifted into a word, and the length that comes out is compared as a number. Nothing
is lost in between, since there are at most eight digits when they are shifted
(`Integer.toNat_word`). The minimal digits of a word are its eight bytes without the leading zeros
(`Integer.ofNat_eq_magnitude_bigEndian`).
-/

namespace Hashlock.Der

/-- The definite forms of a length: one byte below 0x80, or a byte that counts some digits and then
the digits, with as many leading zeros as there is room for. -/
inductive LengthForm : Bytes → Nat → Prop
  | short {n : Nat} (h : n < 0x80) : LengthForm [UInt8.ofNat n] n
  | long {digits : Bytes} (hne : digits ≠ []) (hcount : digits.length < 0x80) :
      LengthForm ((0x80 ||| UInt8.ofNat digits.length) :: digits) (Integer.value digits)

theorem Tag.isLong_eq_false_iff {t : Tag} : t.isLong = false ↔ t.byte &&& 0x1f ≠ 0x1f :=
  beq_eq_false_iff_ne

/-! ## The shortest form -/

theorem ofNat_lt_of_lt {n : Nat} (h : n < 0x80) : UInt8.ofNat n < 0x80 := by
  rw [UInt8.lt_iff_toNat_lt, UInt8.toNat_ofNat']
  exact Nat.lt_of_le_of_lt (Nat.mod_le _ _) h

/-- The long form of a number is the one that is written where the number has no short form and its
digits do not start with zero. -/
theorem long_eq_encodeLength_iff {digits : Bytes} (hne : digits ≠ []) :
    (0x80 ||| UInt8.ofNat digits.length) :: digits = encodeLength (Integer.value digits) ↔
      digits.head? ≠ some 0 ∧ 0x80 ≤ Integer.value digits := by
  rw [encodeLength]
  by_cases hshort : Integer.value digits < 0x80
  · rw [if_pos hshort]
    exact iff_of_false (fun h ↦ hne (List.cons.inj h).2) fun h ↦ Nat.not_lt.mpr h.2 hshort
  · rw [if_neg hshort]
    constructor
    · intro h
      have hdigits : digits = Integer.ofNat (Integer.value digits) := (List.cons.inj h).2
      refine ⟨?_, Nat.not_lt.mp hshort⟩
      rw [hdigits]
      exact Integer.head?_ofNat _
    · rintro ⟨hhead, -⟩
      dsimp only
      rw [Integer.ofNat_value hhead]

/-- What is written is the shortest form there is, and the only one of its size. -/
theorem LengthForm.eq_or_lt {form : Bytes} {n : Nat} (h : LengthForm form n) :
    form = encodeLength n ∨ (encodeLength n).length < form.length := by
  cases h with
  | short h => exact .inl (if_pos h).symm
  | @long digits hne hcount =>
    by_cases hform : digits.head? ≠ some 0 ∧ 0x80 ≤ Integer.value digits
    · exact .inl ((long_eq_encodeLength_iff hne).mpr hform)
    refine .inr ?_
    have hpos := List.length_pos_iff.mpr hne
    rw [encodeLength]
    split
    · exact Nat.succ_lt_succ hpos
    · rename_i hlong
      -- A leading zero is not written, and without it there is a digit less.
      have hhead : digits.head? = some 0 :=
        Decidable.not_not.mp fun h ↦ hform ⟨h, Nat.not_lt.mp hlong⟩
      obtain ⟨rest, rfl⟩ := List.head?_eq_some_iff.mp hhead
      have hvalue : Integer.value (0 :: rest) = Integer.value rest := by
        rw [Integer.value_cons, UInt8.toNat_zero, Nat.zero_mul, Nat.zero_add]
      have hrest := Integer.length_ofNat_le_iff.mpr (Integer.value_lt rest)
      rw [hvalue]
      exact Nat.succ_lt_succ (Nat.lt_succ_of_le hrest)

theorem lengthForm_encodeLength {n : Nat} (h : n < UInt64.size) :
    LengthForm (encodeLength n) n := by
  have hcount : (Integer.ofNat n).length ≤ 8 := Integer.length_ofNat_le_iff.mpr h
  rw [encodeLength]
  by_cases hshort : n < 0x80
  · rw [if_pos hshort]
    exact .short hshort
  · rw [if_neg hshort]
    have hne : Integer.ofNat n ≠ [] := by
      intro hnil
      have hvalue := Integer.value_ofNat n
      rw [hnil, Integer.value_nil] at hvalue
      omega
    have hlong := LengthForm.long hne (Nat.lt_of_le_of_lt hcount (by decide))
    rwa [Integer.value_ofNat] at hlong

/-- No form is the beginning of another: where a length ends can be told from its first byte. -/
theorem LengthForm.append_inj {form form' s s' : Bytes} {n n' : Nat} (h : LengthForm form n)
    (h' : LengthForm form' n') (heq : form ++ s = form' ++ s') :
    form = form' ∧ n = n' ∧ s = s' := by
  have hne {k : Nat} {digits : Bytes} (hk : k < 0x80) (hcount : digits.length < 0x80) :
      UInt8.ofNat k ≠ 0x80 ||| UInt8.ofNat digits.length := by
    intro hfirst
    have hmark := (and_longForm hcount).1
    rw [← hfirst] at hmark
    exact hmark (ofNat_lt_of_lt hk)
  cases h with
  | short hn =>
    cases h' with
    | short hn' =>
      obtain ⟨hfirst, hrest⟩ := List.cons.inj heq
      have hnum := congrArg UInt8.toNat hfirst
      rw [UInt8.toNat_ofNat', UInt8.toNat_ofNat'] at hnum
      obtain rfl : n = n' := by omega
      exact ⟨rfl, rfl, hrest⟩
    | long _ hcount => exact absurd (List.cons.inj heq).1 (hne hn hcount)
  | @long digits _ hcount =>
    cases h' with
    | short hn' => exact absurd (List.cons.inj heq).1.symm (hne hn' hcount)
    | @long digits' _ hcount' =>
      obtain ⟨hfirst, hrest⟩ := List.cons.inj heq
      -- The first byte tells how many digits there are.
      have hlen : digits.length = digits'.length := by
        rw [← (and_longForm hcount).2, hfirst, (and_longForm hcount').2]
      obtain ⟨rfl, rfl⟩ := List.append_inj hrest hlen
      exact ⟨rfl, rfl, rfl⟩

/-! ## Reading a form -/

namespace Read

/-- What becomes of the digits of a long form. -/
theorem longLength_of_digits {digits rest : Bytes} {r : Reader} (hne : digits ≠ [])
    (hunread : r.unread = digits ++ rest) :
    longLength digits.length r
      = if 8 < digits.length then .error (.lengthTooLarge (UInt64.size - 1) r.maxLength) r
        else if digits.head? = some 0 ∨ Integer.value digits < 0x80 then
          .error .nonMinimalLength (r.nested rest)
        else .ok (Integer.value digits) (r.nested rest) := by
  have henough : ¬ r.remaining < digits.length := by
    rw [Reader.remaining, hunread, List.length_append]
    omega
  have htake : take digits.length r = .ok digits (r.nested rest) := by
    rw [take, hunread, List.take_left, List.drop_left]
    rfl
  have hpos : digits.length ≠ 0 := fun h ↦ hne (List.length_eq_zero_iff.mp h)
  rw [longLength, bind_of_ok (get_apply r), if_neg hpos]
  by_cases hmany : 8 < digits.length
  · rw [if_pos hmany, if_pos hmany]
    rfl
  · rw [if_neg hmany, if_neg hmany, if_neg henough, bind_of_ok htake,
      ← Integer.toNat_word (Nat.not_lt.mp hmany)]
    by_cases hminimal : digits.head? = some 0 ∨ (Integer.word digits).toNat < 0x80
    · rw [if_pos hminimal, if_pos hminimal]
      rfl
    · rw [if_neg hminimal, if_neg hminimal]
      rfl

/-- The length that a form declares is given if the form is the shortest one. -/
theorem declaredLength_of_lengthForm {form rest : Bytes} {n : Nat} {r : Reader}
    (h : LengthForm form n) (hunread : r.unread = form ++ rest) :
    declaredLength r
      = if 9 < form.length then
          .error (.lengthTooLarge (UInt64.size - 1) r.maxLength) (r.nested (form.tail ++ rest))
        else if form ≠ encodeLength n then .error .nonMinimalLength (r.nested rest)
        else .ok n (r.nested rest) := by
  cases h with
  | @short n h =>
    have hword : n < UInt64.size := Nat.lt_trans h (by decide)
    have hform : [UInt8.ofNat n] = encodeLength n := (if_pos h).symm
    rw [if_neg (by rw [List.length_singleton]; decide), if_neg (not_not_intro hform)]
    exact declaredLength_eq_ok_iff.mpr ⟨rest, by rw [hunread, hform], hword, rfl⟩
  | @long digits hne hcount =>
    obtain ⟨hmark, hdigits⟩ := and_longForm hcount
    have hbyte := byte_eq_ok_iff.mpr ⟨digits ++ rest, hunread, rfl⟩
    rw [declaredLength, bind_of_ok hbyte, if_neg hmark, hdigits, longLength_of_digits hne rfl,
      List.length_cons]
    by_cases hmany : 8 < digits.length
    · rw [if_pos hmany, if_pos (Nat.succ_lt_succ hmany)]
      rfl
    · rw [if_neg hmany, if_neg fun h ↦ hmany (Nat.lt_of_succ_lt_succ h)]
      by_cases hminimal : digits.head? = some 0 ∨ Integer.value digits < 0x80
      · rw [if_pos hminimal, if_pos]
        · rfl
        · intro hform
          obtain ⟨hhead, hlong⟩ := (long_eq_encodeLength_iff hne).mp hform
          exact hminimal.elim hhead (Nat.not_lt.mpr hlong)
      · obtain ⟨hhead, hlong⟩ := not_or.mp hminimal
        have hform := (long_eq_encodeLength_iff hne).mpr ⟨hhead, Nat.not_lt.mp hlong⟩
        rw [if_neg hminimal, if_neg (not_not_intro hform)]
        rfl

/-- **What becomes of a value, by the form of its length.** The tests are made in this order. -/
theorem tlv_of_lengthForm {t : Tag} {form rest : Bytes} {n : Nat} {r : Reader}
    (h : LengthForm form n) (hunread : r.unread = t.byte :: (form ++ rest))
    (hshort : t.isLong = false) :
    tlv r
      = if 9 < form.length then
          .error (.lengthTooLarge (UInt64.size - 1) r.maxLength) (r.nested (form.tail ++ rest))
        else if form ≠ encodeLength n then .error .nonMinimalLength (r.nested rest)
        else if r.maxLength.toNat < n then .error (.lengthTooLarge n r.maxLength) (r.nested rest)
        else if rest.length < n then .error (.lengthExceedsInput n rest.length) (r.nested rest)
        else .ok (t, rest.take n) (r.nested (rest.drop n)) := by
  have htag := tag_eq_ok_iff.mpr ⟨form ++ rest, hunread, hshort, rfl⟩
  have hdeclared := declaredLength_of_lengthForm (r := r.nested (form ++ rest)) h rfl
  simp only [Reader.nested_nested, Reader.maxLength_nested] at hdeclared
  rw [tlv, bind_of_ok htag, bind_apply]
  by_cases hmany : 9 < form.length
  · rw [if_pos hmany] at hdeclared ⊢
    rw [length_eq, bind_apply, hdeclared]
  rw [if_neg hmany] at hdeclared ⊢
  by_cases hform : form ≠ encodeLength n
  · rw [if_pos hform] at hdeclared ⊢
    rw [length_eq, bind_apply, hdeclared]
  rw [if_neg hform] at hdeclared ⊢
  have hlength := length_of_declared (r := r.nested (form ++ rest)) hdeclared
  rw [Reader.maxLength_nested, Reader.nested_nested] at hlength
  rw [hlength]
  by_cases hmax : r.maxLength.toNat < n
  · rw [if_pos hmax, if_pos hmax]
  rw [if_neg hmax, if_neg hmax]
  by_cases hinput : rest.length < n
  · rw [if_pos hinput, if_pos hinput]
  · rw [if_neg hinput, if_neg hinput]
    rfl

/-- The shortest form of a word is only held against the ceiling and the input. -/
theorem tlv_of_shortest {t : Tag} {rest : Bytes} {n : Nat} {r : Reader}
    (hunread : r.unread = t.byte :: (encodeLength n ++ rest)) (hshort : t.isLong = false)
    (hword : n < UInt64.size) :
    tlv r
      = if r.maxLength.toNat < n then .error (.lengthTooLarge n r.maxLength) (r.nested rest)
        else if rest.length < n then .error (.lengthExceedsInput n rest.length) (r.nested rest)
        else .ok (t, rest.take n) (r.nested (rest.drop n)) := by
  have hfew := Nat.not_lt.mpr (length_encodeLength_le_iff.mpr hword)
  rw [tlv_of_lengthForm (lengthForm_encodeLength hword) hunread hshort, if_neg hfew,
    if_neg (not_not_intro rfl)]

/-- A form is accepted if it is the shortest one and the value is there. -/
theorem exists_tlv_eq_ok_iff {t : Tag} {form rest : Bytes} {n : Nat} {r : Reader}
    (h : LengthForm form n) (hunread : r.unread = t.byte :: (form ++ rest))
    (hshort : t.isLong = false) :
    (∃ p r', tlv r = .ok p r') ↔
      form = encodeLength n ∧ n ≤ r.maxLength.toNat ∧ n ≤ rest.length := by
  constructor
  · rintro ⟨p, r', hok⟩
    rw [tlv_of_lengthForm h hunread hshort] at hok
    split at hok
    · exact absurd hok nofun
    split at hok
    · exact absurd hok nofun
    split at hok
    · exact absurd hok nofun
    split at hok
    · exact absurd hok nofun
    rename_i hform hmax hinput
    exact ⟨Decidable.not_not.mp hform, Nat.not_lt.mp hmax, Nat.not_lt.mp hinput⟩
  · rintro ⟨rfl, hmax, hinput⟩
    have hword : n < UInt64.size := Nat.lt_of_le_of_lt hmax r.maxLength.toNat_lt
    rw [tlv_of_shortest hunread hshort hword, if_neg (Nat.not_lt.mpr hmax),
      if_neg (Nat.not_lt.mpr hinput)]
    exact ⟨_, _, rfl⟩

/-- **The grammar of tag, length and value.** What is accepted is one encoding under the ceiling,
and of all the forms that a length has the shortest alone. A length above the ceiling or above the
input is an error that reports it as it stands. -/
theorem tlv_grammar (r : Reader) :
    (∀ t value s,
        tlv r = .ok (t, value) (r.nested s) ↔
          r.unread = encodeTlv t value ++ s ∧ t.byte &&& 0x1f ≠ 0x1f
            ∧ value.length ≤ r.maxLength.toNat)
      ∧ (∀ p r', tlv r = .ok p r' → r' = r.nested r'.unread)
      ∧ (∀ (t : Tag) form rest n, LengthForm form n → r.unread = t.byte :: (form ++ rest) →
          t.byte &&& 0x1f ≠ 0x1f →
          ((∃ p r', tlv r = .ok p r') ↔
              form = encodeLength n ∧ n ≤ r.maxLength.toNat ∧ n ≤ rest.length)
            ∧ (form = encodeLength n → n < UInt64.size → r.maxLength.toNat < n →
              tlv r = .error (.lengthTooLarge n r.maxLength) (r.nested rest))
            ∧ (form = encodeLength n → n ≤ r.maxLength.toNat → rest.length < n →
              tlv r = .error (.lengthExceedsInput n rest.length) (r.nested rest)))
      ∧ (∀ n, n < UInt64.size →
          LengthForm (encodeLength n) n
            ∧ (∀ form, LengthForm form n →
              form = encodeLength n ∨ (encodeLength n).length < form.length)
            ∧ Integer.ofNat n = Integer.magnitude (Integer.bigEndian 8 n))
      ∧ ∀ digits, digits.length ≤ 8 → (Integer.word digits).toNat = Integer.value digits := by
  refine ⟨?_, ?_, ?_, ?_, ?_⟩
  · intro t value s
    rw [exact_tlv.eq_ok_iff, Tag.isLong_eq_false_iff]
    constructor
    · rintro ⟨rest, hunread, ⟨hlong, hmax⟩, hrest⟩
      obtain rfl : s = rest := congrArg Reader.unread hrest
      exact ⟨hunread, hlong, hmax⟩
    · rintro ⟨hunread, hlong, hmax⟩
      exact ⟨s, hunread, ⟨hlong, hmax⟩, rfl⟩
  · intro p r' h
    obtain ⟨rest, -, -, rfl⟩ := exact_tlv.eq_ok_iff.mp h
    rfl
  · intro t form rest n hform hunread hlong
    have hshort := Tag.isLong_eq_false_iff.mpr hlong
    refine ⟨exists_tlv_eq_ok_iff hform hunread hshort, ?_, ?_⟩
    · rintro rfl hword hmax
      rw [tlv_of_shortest hunread hshort hword, if_pos hmax]
    · rintro rfl hmax hinput
      have hword : n < UInt64.size := Nat.lt_of_le_of_lt hmax r.maxLength.toNat_lt
      rw [tlv_of_shortest hunread hshort hword, if_neg (Nat.not_lt.mpr hmax), if_pos hinput]
  · intro n hn
    exact ⟨lengthForm_encodeLength hn, fun _ ↦ LengthForm.eq_or_lt,
      Integer.ofNat_eq_magnitude_bigEndian hn⟩
  · intro digits hdigits
    exact Integer.toNat_word hdigits

/-- Eight digits of ones are the largest word, and are reported as such; a byte more in front makes
a form of nine digits, which no ceiling admits. Without any input left, a form that declares one
byte is refused. -/
theorem tlv_grammar_ones :
    tlv ⟨[0x04, 0x88] ++ List.replicate 8 0xff, 128⟩
        = .error (.lengthTooLarge (UInt64.size - 1) 128) ⟨[], 128⟩
      ∧ (¬ ∃ p r', tlv ⟨[0x04, 0x89, 0x00] ++ List.replicate 8 0xff, 128⟩ = .ok p r')
      ∧ tlv ⟨[0x04, 0x01], 128⟩ = .error (.lengthExceedsInput 1 0) ⟨[], 128⟩
      ∧ tlv ⟨[0x04, 0x00, 0x2a], 0⟩ = .ok (⟨0x04⟩, []) ⟨[0x2a], 0⟩
      ∧ (encodeLength (UInt64.size - 1)).length < 10
      ∧ (Integer.word (List.replicate 8 0xff)).toNat = UInt64.size - 1 := by
  have hones : Integer.value (List.replicate 8 0xff) = UInt64.size - 1 := by decide
  have hzero : Integer.value (0x00 :: List.replicate 8 0xff) = UInt64.size - 1 := by decide
  have hform : LengthForm (0x88 :: List.replicate 8 0xff) (UInt64.size - 1) := by
    rw [← hones]
    exact .long (List.cons_ne_nil 0xff (List.replicate 7 0xff)) (by decide)
  have hwide : LengthForm (0x89 :: 0x00 :: List.replicate 8 0xff) (UInt64.size - 1) := by
    rw [← hzero]
    exact .long (List.cons_ne_nil 0x00 (List.replicate 8 0xff)) (by decide)
  refine ⟨?_, ?_, ?_, ?_, ?_, ?_⟩
  · exact ((tlv_grammar _).2.2.1 ⟨0x04⟩ _ [] _ hform (by decide) (by decide)).2.1 (by decide)
      (by decide) (by decide)
  · rw [((tlv_grammar _).2.2.1 ⟨0x04⟩ _ [] _ hwide (by decide) (by decide)).1]
    decide
  · exact ((tlv_grammar _).2.2.1 ⟨0x04⟩ _ [] _ (.short (n := 1) (by decide)) (by decide)
      (by decide)).2.2 (by decide) (by decide) (by decide)
  · exact ((tlv_grammar ⟨[0x04, 0x00, 0x2a], 0⟩).1 ⟨0x04⟩ [] [0x2a]).mpr (by decide)
  · refine (((tlv_grammar ⟨[], 0⟩).2.2.2.1 _ (by decide)).2.1 _ hwide).resolve_left ?_
    decide
  · exact ((tlv_grammar ⟨[], 0⟩).2.2.2.2 _ (by decide)).trans hones

end Read

end Hashlock.Der
