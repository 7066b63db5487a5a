import Hashlock.Condition.Contents
import Hashlock.Proofs.Condition.Order

/-!
# Fingerprint contents determine what is committed to

A fingerprint is the digest of some contents, so it binds no more than the contents do. Here they
are read back: whoever finds two ways to fill a layout with the same bytes has filled it with the
same data. A prefix cannot run into the integer behind it, nor that into the nested condition, and a
set of branches is cut into its members in one way only (`prefixed_inj`, `threshold_inj`).

## Which lengths are assumed

The outermost value and the last field of a sequence end where the bytes end, and need no
assumption. A field with another one behind it ends where its length says. That is read as a word,
so such a field must be shorter than 2^64 bytes: the prefix is the only one of any length, and a
cost bounds it.

The branches come back as a list in canonical order. Which list they were given in is lost, and
meant to be.
-/

namespace Hashlock

open Der Read

namespace Condition

/-- The encodings of conditions in canonical order, one after the other, tell the conditions. -/
theorem perm_of_flatten_sortedEncodings_eq {cs ds : List Condition}
    (h : (sortedEncodings cs).flatten = (sortedEncodings ds).flatten) : cs.Perm ds := by
  rw [sortedEncodings_eq_map_sort, sortedEncodings_eq_map_sort, ← List.flatMap_def,
    ← List.flatMap_def] at h
  have hsort : sort cs = sort ds := eq_of_flatMap_encode_eq h
  have hcs := sort_perm cs
  rw [hsort] at hcs
  exact hcs.symm.trans (sort_perm ds)

end Condition

namespace Contents

/-- Contents of a prefix condition tell the prefix, the bound and the nested condition apart. -/
theorem prefixed_inj {p p' : Bytes} {max max' : UInt64} {nested nested' : Condition}
    (hp : p.length < UInt64.size) (hp' : p'.length < UInt64.size)
    (h : prefixed p max nested = prefixed p' max' nested') :
    p = p' ∧ max = max' ∧ nested = nested' := by
  have hword : ∀ n : UInt64, (Integer.encodeUInt64 n).length < UInt64.size := by
    intro n
    exact Nat.lt_of_le_of_lt (Integer.length_encodeUInt64_le n) (by decide)
  have hfields := eq_of_encodeTlv_eq h
  rw [List.append_assoc, List.append_assoc] at hfields
  obtain ⟨hbytes, hrest⟩ := encodeTlv_append_inj rfl hfields hp hp'
  obtain ⟨hmax, hnested⟩ := encodeTlv_append_inj rfl hrest (hword max) (hword max')
  refine ⟨hbytes, Integer.eq_of_encodeUInt64_eq hmax, ?_⟩
  exact Condition.encode_injective (eq_of_encodeTlv_eq hnested)

/-- Contents of a threshold condition tell the threshold and the branches. -/
theorem threshold_inj {k k' : Nat} {bs bs' : List Condition} (hk : k < UInt64.size)
    (hk' : k' < UInt64.size) (h : threshold k bs = threshold k' bs') : k = k' ∧ bs.Perm bs' := by
  have hword : ∀ n : Nat, n < UInt64.size →
      (Integer.encode (Integer.ofNat n)).length < UInt64.size := by
    intro n hn
    exact Nat.lt_of_le_of_lt (Integer.length_encode_ofNat_le hn) (by decide)
  obtain ⟨hnumber, hset⟩ :=
    encodeTlv_append_inj rfl (eq_of_encodeTlv_eq h) (hword k hk) (hword k' hk')
  refine ⟨Integer.eq_of_encode_ofNat_eq hnumber, ?_⟩
  exact Condition.perm_of_flatten_sortedEncodings_eq (eq_of_encodeTlv_eq hset)

theorem rsa_inj {modulus modulus' : Bytes} (h : rsa modulus = rsa modulus') :
    modulus = modulus' :=
  eq_of_encodeTlv_eq (eq_of_encodeTlv_eq h)

theorem ed25519_inj {key key' : Ed25519.PublicKey} (h : ed25519 key = ed25519 key') :
    key = key' := by
  have hbytes : key.bytes = key'.bytes := eq_of_encodeTlv_eq (eq_of_encodeTlv_eq h)
  rw [← Option.some.injEq, ← Ed25519.PublicKey.ofBytes?_bytes key, hbytes,
    Ed25519.PublicKey.ofBytes?_bytes]

end Contents

end Hashlock
