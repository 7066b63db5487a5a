import Hashlock.Proofs.Der.Tlv

/-!
# What a refused value leaves behind

A reader that fails stands behind the bytes it had consumed. For a value with its tag these are no
more than a header: one byte for the tag, one for the length or for the count of its digits, and
eight digits at most (`tlv_eq_error`). The value itself is not touched before its header has been
accepted, and then it is taken as a whole. So where it stands under an unexpected tag, the reader is
behind the value and not within (`expect_eq_error_unexpectedTag`).

`Brief m k` carries the bound through a sequence of steps, and with it the fact that none of them
knows of a tag that could be unexpected.
-/

namespace Hashlock.Der.Read

variable {α β : Type} {m : Read α} {f : α → Read β} {r r' : Reader} {j k : Nat}

/-- `m` takes at most `k` bytes off the front, whether it succeeds or fails, and no tag is
unexpected. -/
structure Brief (m : Read α) (k : Nat) : Prop where
  ok ⦃r r' : Reader⦄ ⦃a : α⦄ : m r = .ok a r' →
    ∃ taken, taken.length ≤ k ∧ r.unread = taken ++ r'.unread
  error ⦃r r' : Reader⦄ ⦃e : DecodeError⦄ : m r = .error e r' →
    (∀ t t', e ≠ .unexpectedTag t t') ∧ ∃ taken, taken.length ≤ k ∧ r.unread = taken ++ r'.unread

theorem bind_eq_error_iff {e : DecodeError} {r'' : Reader} :
    (m >>= f) r = .error e r'' ↔
      m r = .error e r'' ∨ ∃ a r', m r = .ok a r' ∧ f a r' = .error e r'' := by
  rw [bind_apply]
  cases hm : m r with
  | ok a r' =>
    constructor
    · exact fun h ↦ .inr ⟨a, r', rfl, h⟩
    · rintro (h | ⟨_, _, h, hf⟩)
      · exact absurd h nofun
      · obtain ⟨rfl, rfl⟩ := EStateM.Result.ok.inj h
        exact hf
  | error e' r' =>
    constructor
    · intro h
      obtain ⟨rfl, rfl⟩ := EStateM.Result.error.inj h
      exact .inl rfl
    · rintro (h | ⟨_, _, h, -⟩)
      · obtain ⟨rfl, rfl⟩ := EStateM.Result.error.inj h
        rfl
      · exact absurd h nofun

/-! ## Sequences -/

theorem brief_pure (a : α) : Brief (pure a) k where
  ok r r' b h := by
    obtain ⟨-, rfl⟩ := pure_eq_ok_iff.mp h
    exact ⟨[], Nat.zero_le _, rfl⟩
  error r r' e h := absurd h nofun

theorem brief_throw {e : DecodeError} (he : ∀ t t', e ≠ .unexpectedTag t t') :
    Brief (throw e : Read α) k where
  ok r r' b h := absurd h nofun
  error r r' e' h := by
    obtain ⟨rfl, rfl⟩ := EStateM.Result.error.inj h
    exact ⟨he, [], Nat.zero_le _, rfl⟩

theorem Brief.mono (hm : Brief m j) (hjk : j ≤ k) : Brief m k where
  ok r r' a h := by
    obtain ⟨taken, hlen, hunread⟩ := hm.ok h
    exact ⟨taken, Nat.le_trans hlen hjk, hunread⟩
  error r r' e h := by
    obtain ⟨he, taken, hlen, hunread⟩ := hm.error h
    exact ⟨he, taken, Nat.le_trans hlen hjk, hunread⟩

theorem Brief.bind (hm : Brief m j) (hf : ∀ a, Brief (f a) k) : Brief (m >>= f) (j + k) where
  ok r r'' b h := by
    obtain ⟨a, r', ha, hb⟩ := bind_eq_ok_iff.mp h
    obtain ⟨taken, hj, hunread⟩ := hm.ok ha
    obtain ⟨taken', hk, hunread'⟩ := (hf a).ok hb
    refine ⟨taken ++ taken', ?_, by rw [hunread, hunread', List.append_assoc]⟩
    rw [List.length_append]
    exact Nat.add_le_add hj hk
  error r r'' e h := by
    rcases bind_eq_error_iff.mp h with he | ⟨a, r', ha, he⟩
    · exact (hm.mono (Nat.le_add_right j k)).error he
    · obtain ⟨taken, hj, hunread⟩ := hm.ok ha
      obtain ⟨hne, taken', hk, hunread'⟩ := (hf a).error he
      refine ⟨hne, taken ++ taken', ?_, by rw [hunread, hunread', List.append_assoc]⟩
      rw [List.length_append]
      exact Nat.add_le_add hj hk

theorem Brief.get_bind {g : Reader → Read α} (hg : ∀ r, Brief (g r) k) : Brief (get >>= g) k where
  ok r _ _ h := (hg r).ok (by rwa [bind_of_ok (get_apply r)] at h)
  error r _ _ h := (hg r).error (by rwa [bind_of_ok (get_apply r)] at h)

/-! ## Headers -/

theorem brief_byte : Brief byte 1 where
  ok r r' b h := by
    obtain ⟨rest, hunread, rfl⟩ := byte_eq_ok_iff.mp h
    exact ⟨[b], Nat.le_refl _, hunread⟩
  error r r' e h := by
    obtain ⟨unread, max⟩ := r
    rcases unread with - | ⟨b, rest⟩
    · obtain ⟨rfl, rfl⟩ := EStateM.Result.error.inj h
      exact ⟨nofun, [], Nat.zero_le _, rfl⟩
    · exact absurd h nofun

theorem brief_take (n : Nat) : Brief (take n) n where
  ok r r' bs h := by
    obtain ⟨-, rfl⟩ := EStateM.Result.ok.inj h
    exact ⟨r.unread.take n, List.length_take_le _ _, (List.take_append_drop _ _).symm⟩
  error r r' e h := absurd h nofun

theorem brief_tag : Brief tag 1 := by
  refine brief_byte.bind (k := 0) fun b ↦ ?_
  dsimp only
  split
  · exact brief_throw nofun
  · exact brief_pure _

theorem brief_longLength (count : Nat) : Brief (longLength count) 8 := by
  refine Brief.get_bind fun r ↦ ?_
  split
  · exact brief_throw nofun
  split
  · exact brief_throw nofun
  rename_i hfew
  split
  · exact brief_throw nofun
  refine ((brief_take count).bind (k := 0) fun digits ↦ ?_).mono (Nat.not_lt.mp hfew)
  dsimp only
  split
  · exact brief_throw nofun
  · exact brief_pure _

theorem brief_length : Brief length 9 := by
  have hdeclared : Brief declaredLength 9 := by
    refine brief_byte.bind (k := 8) fun mark ↦ ?_
    split
    · exact brief_pure _
    · exact brief_longLength _
  rw [length_eq]
  refine hdeclared.bind (k := 0) fun declared ↦ Brief.get_bind fun r ↦ ?_
  split
  · exact brief_throw nofun
  split
  · exact brief_throw nofun
  · exact brief_pure _

/-! ## Values -/

/-- **A value that is refused has lost ten bytes at most**, those of its header. -/
theorem tlv_eq_error {e : DecodeError} (h : tlv r = .error e r') :
    (∀ t t', e ≠ .unexpectedTag t t')
      ∧ ∃ taken, taken.length ≤ 10 ∧ r.unread = taken ++ r'.unread := by
  have hheader : Brief (do let t ← tag; let n ← length; return (t, n)) 10 :=
    brief_tag.bind fun t ↦ brief_length.bind (k := 0) fun n ↦ brief_pure _
  apply hheader.error
  -- Once there is a header, nothing fails.
  rcases bind_eq_error_iff.mp h with he | ⟨t, r₁, ht, h⟩
  · exact bind_eq_error_iff.mpr (.inl he)
  rcases bind_eq_error_iff.mp h with he | ⟨n, r₂, -, h⟩
  · exact bind_eq_error_iff.mpr (.inr ⟨t, r₁, ht, bind_eq_error_iff.mpr (.inl he)⟩)
  · exact absurd h nofun

/-- **A value under an unexpected tag is behind the reader**, all of it and nothing else. -/
theorem expect_eq_error_unexpectedTag {t expected actual : Tag}
    (h : expect t r = .error (.unexpectedTag expected actual) r') :
    expected = t ∧ actual ≠ t ∧ ∃ value, r.unread = encodeTlv actual value ++ r'.unread := by
  rcases bind_eq_error_iff.mp h with he | ⟨⟨found, value⟩, r₁, hvalue, h⟩
  · exact absurd rfl ((tlv_eq_error he).1 expected actual)
  obtain ⟨rest, hunread, -, rfl⟩ := exact_tlv.eq_ok_iff.mp hvalue
  dsimp only at h
  split at h
  · exact absurd h nofun
  · rename_i hne
    obtain ⟨herror, rfl⟩ := EStateM.Result.error.inj h
    obtain ⟨rfl, rfl⟩ := DecodeError.unexpectedTag.inj herror
    exact ⟨rfl, hne, value, hunread⟩

end Hashlock.Der.Read
