import Hashlock.Decoding
import Hashlock.Proofs.Bytes.Order

/-!
# Running steps of a reader

How a composed step succeeds is told by how its parts succeed, so a decoder is taken apart by
rewriting with the equivalences of this module and is never unfolded further.

## What a step reads

`Exact m encode Fits` says that `m` accepts the encodings of the values that fit, and nothing else:
it succeeds precisely where the unread input starts with such an encoding, and takes just that. One
statement has both halves, so a decoder that is built from exact steps is proved sound and complete
in a single pass.

`Fills m r a` says that `m` reads `a` from everything that is unread. Values are cut off before
they are read, so this is how the inner steps of a decoder are run.

`Fails m r e` forgets where a failing step leaves the reader; nested readers forget it, too.
-/

namespace Hashlock.Der

namespace Reader

@[simp] theorem unread_nested (r : Reader) (bs : Bytes) : (r.nested bs).unread = bs := rfl

@[simp] theorem maxLength_nested (r : Reader) (bs : Bytes) :
    (r.nested bs).maxLength = r.maxLength := rfl

@[simp] theorem nested_nested (r : Reader) (bs bs' : Bytes) :
    (r.nested bs).nested bs' = r.nested bs' := rfl

@[simp] theorem nested_unread (r : Reader) : r.nested r.unread = r := rfl

end Reader

namespace Read

variable {α β : Type}

/-! ## Sequences of steps -/

theorem bind_of_ok {m : Read α} {f : α → Read β} {r r' : Reader} {a : α} (h : m r = .ok a r') :
    (m >>= f) r = f a r' := by
  rw [bind_apply, h]

theorem bind_eq_ok_iff {m : Read α} {f : α → Read β} {r r'' : Reader} {b : β} :
    (m >>= f) r = .ok b r'' ↔ ∃ a r', m r = .ok a r' ∧ f a r' = .ok b r'' := by
  constructor
  · intro h
    cases hm : m r with
    | ok a r' => exact ⟨a, r', rfl, by rw [← h, bind_of_ok hm]⟩
    | error e r' => rw [bind_apply, hm] at h; exact absurd h nofun
  · rintro ⟨a, r', hm, hf⟩
    rw [bind_of_ok hm, hf]

theorem pure_eq_ok_iff {a b : α} {r r' : Reader} :
    (pure a : Read α) r = .ok b r' ↔ a = b ∧ r' = r := by
  rw [pure_apply, EStateM.Result.ok.injEq, eq_comm (a := r)]

theorem ofExcept_eq_ok_iff {x : Except DecodeError α} {a : α} {r r' : Reader} :
    ofExcept x r = .ok a r' ↔ x = .ok a ∧ r' = r := by
  cases x with
  | ok b => rw [ofExcept, pure_eq_ok_iff, Except.ok.injEq]
  | error e => exact ⟨fun h ↦ absurd h nofun, fun h ↦ absurd h.1 nofun⟩

theorem construct_eq_ok_iff {x : Except ConstructionError α} {a : α} {r r' : Reader} :
    construct x r = .ok a r' ↔ x = .ok a ∧ r' = r := by
  cases x with
  | ok b => rw [construct, pure_eq_ok_iff, Except.ok.injEq]
  | error e => exact ⟨fun h ↦ absurd h nofun, fun h ↦ absurd h.1 nofun⟩

theorem finish_eq_ok_iff {u : Unit} {r r' : Reader} :
    finish r = .ok u r' ↔ r.unread = [] ∧ r' = r := by
  rw [finish, bind_of_ok (get_apply r), ← List.length_eq_zero_iff]
  by_cases h : r.remaining = 0
  · rw [if_pos h, pure_eq_ok_iff]
    exact and_congr_left fun _ ↦ iff_of_true rfl h
  · rw [if_neg h]
    exact ⟨fun h' ↦ absurd h' nofun, fun h' ↦ absurd h'.1 h⟩

/-! ## Values that are cut off -/

/-- Running `m` at `r` gives `a` and consumes everything. -/
def Fills (m : Read α) (r : Reader) (a : α) : Prop := ∃ r', m r = .ok a r' ∧ r'.unread = []

theorem bind_fills_iff {m : Read α} {f : α → Read β} {r : Reader} {b : β} :
    Fills (m >>= f) r b ↔ ∃ a r', m r = .ok a r' ∧ Fills (f a) r' b := by
  constructor
  · rintro ⟨r'', h, hnil⟩
    obtain ⟨a, r', hm, hf⟩ := bind_eq_ok_iff.mp h
    exact ⟨a, r', hm, r'', hf, hnil⟩
  · rintro ⟨a, r', hm, r'', hf, hnil⟩
    exact ⟨r'', bind_eq_ok_iff.mpr ⟨a, r', hm, hf⟩, hnil⟩

theorem pure_fills_iff {a b : α} {r : Reader} :
    Fills (pure a) r b ↔ a = b ∧ r.unread = [] := by
  constructor
  · rintro ⟨r', h, hnil⟩
    obtain ⟨hab, rfl⟩ := pure_eq_ok_iff.mp h
    exact ⟨hab, hnil⟩
  · rintro ⟨hab, hnil⟩
    exact ⟨r, pure_eq_ok_iff.mpr ⟨hab, rfl⟩, hnil⟩

theorem finish_bind_fills_iff {m : Read α} {r : Reader} {a : α} :
    Fills (finish >>= fun _ ↦ m) r a ↔ r.unread = [] ∧ Fills m r a := by
  rw [bind_fills_iff]
  constructor
  · rintro ⟨u, r', h, hm⟩
    obtain ⟨hnil, rfl⟩ := finish_eq_ok_iff.mp h
    exact ⟨hnil, hm⟩
  · rintro ⟨hnil, hm⟩
    exact ⟨(), r, finish_eq_ok_iff.mpr ⟨hnil, rfl⟩, hm⟩

theorem construct_fills_iff {x : Except ConstructionError α} {r : Reader} {a : α} :
    Fills (construct x) r a ↔ x = .ok a ∧ r.unread = [] := by
  constructor
  · rintro ⟨r', h, hnil⟩
    obtain ⟨hx, rfl⟩ := construct_eq_ok_iff.mp h
    exact ⟨hx, hnil⟩
  · rintro ⟨hx, hnil⟩
    exact ⟨r, construct_eq_ok_iff.mpr ⟨hx, rfl⟩, hnil⟩

theorem complete_eq_ok_iff {m : Read α} {r r' : Reader} {a : α} :
    complete m r = .ok a r' ↔ m r = .ok a r' ∧ r'.unread = [] := by
  simp only [complete, bind_eq_ok_iff, finish_eq_ok_iff, pure_eq_ok_iff]
  constructor
  · rintro ⟨b, r₁, hm, u, r₂, ⟨hnil, rfl⟩, rfl, rfl⟩
    exact ⟨hm, hnil⟩
  · rintro ⟨hm, hnil⟩
    exact ⟨a, r', hm, (), r', ⟨hnil, rfl⟩, rfl, rfl⟩

theorem within_eq_ok_iff {value : Bytes} {m : Read α} {r r' : Reader} {a : α} :
    within value m r = .ok a r' ↔ Fills m (r.nested value) a ∧ r' = r := by
  rw [within]
  constructor
  · intro h
    split at h
    · rename_i b r₁ hm
      obtain ⟨rfl, rfl⟩ := EStateM.Result.ok.inj h
      exact ⟨⟨r₁, complete_eq_ok_iff.mp hm⟩, rfl⟩
    · exact absurd h nofun
  · rintro ⟨⟨r₁, hm⟩, rfl⟩
    rw [complete_eq_ok_iff.mpr hm]

theorem within_bind_fills_iff {value : Bytes} {m : Read α} {f : α → Read β} {r : Reader} {b : β} :
    Fills (within value m >>= f) r b ↔ ∃ a, Fills m (r.nested value) a ∧ Fills (f a) r b := by
  rw [bind_fills_iff]
  constructor
  · rintro ⟨a, r', h, hf⟩
    obtain ⟨ha, rfl⟩ := within_eq_ok_iff.mp h
    exact ⟨a, ha, hf⟩
  · rintro ⟨a, ha, hf⟩
    exact ⟨a, r, within_eq_ok_iff.mpr ⟨ha, rfl⟩, hf⟩

theorem run_eq_ok_iff {m : Read α} {maxLength : UInt64} {input : Bytes} {a : α} :
    run m maxLength input = .ok a ↔ Fills m ⟨input, maxLength⟩ a := by
  rw [run]
  constructor
  · intro h
    split at h
    · rename_i b r hm
      obtain rfl := Except.ok.inj h
      exact ⟨r, complete_eq_ok_iff.mp hm⟩
    · exact absurd h nofun
  · rintro ⟨r, hm⟩
    rw [complete_eq_ok_iff.mpr hm]

/-! ## Failures -/

/-- Running `m` at `r` fails with `e`. -/
def Fails (m : Read α) (r : Reader) (e : DecodeError) : Prop := ∃ r', m r = .error e r'

theorem fails_throw (e : DecodeError) (r : Reader) : Fails (throw e : Read α) r e := ⟨r, rfl⟩

theorem fails_construct {x : Except ConstructionError α} {e : ConstructionError}
    (h : x = .error e) (r : Reader) : Fails (construct x) r (.construction e) := by
  rw [h]
  exact fails_throw _ r

theorem Fails.bind {m : Read α} {r : Reader} {e : DecodeError} (h : Fails m r e)
    (f : α → Read β) : Fails (m >>= f) r e := by
  obtain ⟨r', h⟩ := h
  exact ⟨r', by rw [bind_apply, h]⟩

theorem Fails.bind_of_ok {m : Read α} {f : α → Read β} {r r' : Reader} {a : α} {e : DecodeError}
    (hm : m r = .ok a r') (hf : Fails (f a) r' e) : Fails (m >>= f) r e := by
  obtain ⟨r'', hf⟩ := hf
  exact ⟨r'', by rw [Read.bind_of_ok hm, hf]⟩

theorem fails_finish {r : Reader} (h : r.unread ≠ []) :
    Fails finish r (.trailingBytes r.remaining) := by
  refine Fails.bind_of_ok (get_apply r) ?_
  rw [if_neg (show r.remaining ≠ 0 from mt List.length_eq_zero_iff.mp h)]
  exact fails_throw _ r

theorem Fails.within {value : Bytes} {m : Read α} {r : Reader} {e : DecodeError}
    (h : Fails m (r.nested value) e) : Fails (Read.within value m) r e := by
  obtain ⟨r', h⟩ := h.bind fun a ↦ do finish; return a
  exact ⟨r, by rw [Read.within, complete, h]⟩

theorem Fails.run {m : Read α} {maxLength : UInt64} {input : Bytes} {e : DecodeError}
    (h : Fails m ⟨input, maxLength⟩ e) : Read.run m maxLength input = .error e := by
  obtain ⟨r', h⟩ := h.bind fun a ↦ do finish; return a
  rw [Read.run, complete, h]

/-! ## Steps that agree

Running a step depends on its parts where they are run, and nowhere else. -/

theorem bind_congr_of_ok {m : Read α} {f g : α → Read β} {r : Reader}
    (h : ∀ a r', m r = .ok a r' → f a r' = g a r') : (m >>= f) r = (m >>= g) r := by
  rw [bind_apply, bind_apply]
  cases hm : m r with
  | error e r' => rfl
  | ok a r' => exact h a r' hm

theorem bind_congr_left {m m' : Read α} {f : α → Read β} {r : Reader} (h : m r = m' r) :
    (m >>= f) r = (m' >>= f) r := by
  rw [bind_apply, bind_apply, h]

theorem within_congr {m m' : Read α} {value : Bytes} {r : Reader}
    (h : m (r.nested value) = m' (r.nested value)) : within value m r = within value m' r := by
  rw [within, within, complete, complete, bind_congr_left h]

/-! ## Exact steps -/

/-- `m` reads the encodings of the values that fit under the ceiling, and nothing else. -/
structure Exact (m : Read α) (encode : α → Bytes) (Fits : UInt64 → α → Prop) : Prop where
  eq_ok_iff {r r' : Reader} {a : α} : m r = .ok a r' ↔
    ∃ rest, r.unread = encode a ++ rest ∧ Fits r.maxLength a ∧ r' = r.nested rest

variable {m : Read α} {encode : α → Bytes} {Fits : UInt64 → α → Prop}

theorem Exact.fills_iff (hm : Exact m encode Fits) {r : Reader} {a : α} :
    Fills m r a ↔ r.unread = encode a ∧ Fits r.maxLength a := by
  constructor
  · rintro ⟨r', h, hnil⟩
    obtain ⟨rest, hunread, hfits, rfl⟩ := hm.eq_ok_iff.mp h
    rw [Reader.unread_nested] at hnil
    rw [hnil, List.append_nil] at hunread
    exact ⟨hunread, hfits⟩
  · rintro ⟨hunread, hfits⟩
    exact ⟨r.nested [], hm.eq_ok_iff.mpr ⟨[], by rw [hunread, List.append_nil], hfits, rfl⟩, rfl⟩

theorem Exact.bind_fills_iff (hm : Exact m encode Fits) {f : α → Read β} {r : Reader} {b : β} :
    Fills (m >>= f) r b ↔
      ∃ a rest, r.unread = encode a ++ rest ∧ Fits r.maxLength a ∧ Fills (f a) (r.nested rest) b := by
  rw [Read.bind_fills_iff]
  constructor
  · rintro ⟨a, r', h, hf⟩
    obtain ⟨rest, hunread, hfits, rfl⟩ := hm.eq_ok_iff.mp h
    exact ⟨a, rest, hunread, hfits, hf⟩
  · rintro ⟨a, rest, hunread, hfits, hf⟩
    exact ⟨a, r.nested rest, hm.eq_ok_iff.mpr ⟨rest, hunread, hfits, rfl⟩, hf⟩

/-- The last field of a value reads what is left. -/
theorem Exact.bind_construct_fills_iff (hm : Exact m encode Fits)
    {g : α → Except ConstructionError β} {r : Reader} {b : β} :
    Fills (m >>= fun a ↦ construct (g a)) r b ↔
      ∃ a, r.unread = encode a ∧ Fits r.maxLength a ∧ g a = .ok b := by
  rw [hm.bind_fills_iff]
  constructor
  · rintro ⟨a, rest, hunread, hfits, h⟩
    obtain ⟨hg, rfl⟩ := construct_fills_iff.mp h
    exact ⟨a, hunread.trans (List.append_nil _), hfits, hg⟩
  · rintro ⟨a, hunread, hfits, hg⟩
    refine ⟨a, [], hunread.trans (List.append_nil _).symm, hfits, ?_⟩
    exact construct_fills_iff.mpr ⟨hg, rfl⟩

theorem Exact.bind_fails (hm : Exact m encode Fits) {f : α → Read β} {r : Reader} {a : α}
    {rest : Bytes} {e : DecodeError} (hunread : r.unread = encode a ++ rest)
    (hfits : Fits r.maxLength a) (hf : Fails (f a) (r.nested rest) e) : Fails (m >>= f) r e :=
  Fails.bind_of_ok (hm.eq_ok_iff.mpr ⟨rest, hunread, hfits, rfl⟩) hf

/-- Encodings that are read exactly delimit themselves: one that is read from the front of some
bytes tells where it ends and what it encodes. -/
theorem Exact.append_inj (hm : Exact m encode Fits) (max : UInt64) {a b : α} {s t : Bytes}
    (h : encode a ++ s = encode b ++ t) (ha : Fits max a) (hb : Fits max b) : a = b ∧ s = t := by
  have hread : m ⟨encode a ++ s, max⟩ = .ok a ⟨s, max⟩ := hm.eq_ok_iff.mpr ⟨s, rfl, ha, rfl⟩
  have hread' : m ⟨encode a ++ s, max⟩ = .ok b ⟨t, max⟩ := hm.eq_ok_iff.mpr ⟨t, h, hb, rfl⟩
  rw [hread] at hread'
  obtain ⟨rfl, hrest⟩ := EStateM.Result.ok.inj hread'
  exact ⟨rfl, congrArg Reader.unread hrest⟩

/-- A sequence of such encodings can be cut into its members in one way only. -/
theorem Exact.flatMap_inj (hm : Exact m encode Fits) (hne : ∀ a, encode a ≠ []) (max : UInt64)
    {as bs : List α} (h : as.flatMap encode = bs.flatMap encode) (has : ∀ a ∈ as, Fits max a)
    (hbs : ∀ b ∈ bs, Fits max b) : as = bs := by
  induction as generalizing bs with
  | nil =>
    rcases bs with - | ⟨b, bs⟩
    · rfl
    · exact absurd (List.append_eq_nil_iff.mp h.symm).1 (hne b)
  | cons a as ih =>
    rcases bs with - | ⟨b, bs⟩
    · exact absurd (List.append_eq_nil_iff.mp h).1 (hne a)
    · rw [List.forall_mem_cons] at has hbs
      rw [List.flatMap_cons, List.flatMap_cons] at h
      obtain ⟨rfl, hrest⟩ := hm.append_inj max h has.1 hbs.1
      rw [ih hrest has.2 hbs.2]

/-! ## What is consumed -/

theorem withConsumed_of_ok {r r' : Reader} {a : α} (h : m r = .ok a r') :
    withConsumed m r = .ok (a, r.unread.take (r.remaining - r'.remaining)) r' := by
  rw [withConsumed, bind_of_ok (get_apply r), bind_of_ok h, bind_of_ok (get_apply r'), pure_apply]

theorem withConsumed_of_error {r r' : Reader} {e : DecodeError} (h : m r = .error e r') :
    withConsumed m r = .error e r' := by
  rw [withConsumed, bind_of_ok (get_apply r), bind_apply, h]

theorem withConsumed_eq_ok_iff {r r' : Reader} {a : α} {encoded : Bytes} :
    withConsumed m r = .ok (a, encoded) r' ↔
      m r = .ok a r' ∧ encoded = r.unread.take (r.remaining - r'.remaining) := by
  constructor
  · intro h
    cases hm : m r with
    | error e r₁ => rw [withConsumed_of_error hm] at h; exact absurd h nofun
    | ok b r₁ =>
      rw [withConsumed_of_ok hm] at h
      obtain ⟨hpair, rfl⟩ := EStateM.Result.ok.inj h
      obtain ⟨rfl, rfl⟩ := Prod.mk.inj hpair
      exact ⟨rfl, rfl⟩
  · rintro ⟨hm, rfl⟩
    exact withConsumed_of_ok hm

/-- What an exact step consumes is the encoding of what it gives. -/
theorem Exact.take_eq (hm : Exact m encode Fits) {r r' : Reader} {a : α} (h : m r = .ok a r') :
    r.unread.take (r.remaining - r'.remaining) = encode a := by
  obtain ⟨rest, hunread, -, rfl⟩ := hm.eq_ok_iff.mp h
  rw [Reader.remaining, Reader.remaining, hunread, Reader.unread_nested, List.length_append,
    Nat.add_sub_cancel, List.take_left]

/-! ## Sets

The loop has one equation for a used-up set and one for a set with a member to read; what is proved
about sets follows from these two by induction on the fuel. -/

/-- Whether the member that was read last, if there is one, may stand in front of an encoding. -/
theorem previous_le_iff {previous : Option Bytes} {bs : Bytes} :
    (¬ previous.any fun p ↦ Bytes.compare p bs = .gt) ↔ ∀ p ∈ previous, Bytes.le p bs = true := by
  cases previous with
  | none => simp
  | some p =>
    rw [Option.any_some, decide_eq_true_iff, Bytes.compare_eq_gt_iff, Decidable.not_not]
    simp

theorem sortedMembers_of_empty {fuel : Nat} {previous : Option Bytes} {members : List α}
    {r : Reader} (h : r.unread = []) :
    sortedMembers m fuel previous members r = .ok members.reverse r := by
  cases fuel with
  | zero => rfl
  | succ fuel =>
    rw [sortedMembers, bind_of_ok (get_apply r), Reader.isEmpty, h, if_pos List.isEmpty_nil]
    rfl

/-- Before the set is used up, reading its members starts with reading one. -/
theorem sortedMembers_of_open {fuel : Nat} {previous : Option Bytes} {members : List α}
    {r : Reader} (hopen : r.unread ≠ []) :
    sortedMembers m (fuel + 1) previous members r
      = match m r with
        | .error e r' => .error e r'
        | .ok a r' =>
          let encoded := r.unread.take (r.remaining - r'.remaining)
          if previous.any fun p ↦ Bytes.compare p encoded = .gt then .error .nonCanonicalSetOrder r'
          else sortedMembers m fuel (some encoded) (a :: members) r' := by
  rw [sortedMembers, bind_of_ok (get_apply r), Reader.isEmpty, if_neg (by rwa [List.isEmpty_iff])]
  cases hread : m r with
  | error e r' => rw [bind_apply, withConsumed_of_error hread]
  | ok a r' =>
    rw [bind_of_ok (withConsumed_of_ok hread)]
    dsimp only
    split
    · rfl
    · rfl

/-- A set that is not used up is read only if its next member is. -/
theorem Exact.exists_member (hm : Exact m encode Fits) {fuel : Nat} {previous : Option Bytes}
    {members as : List α} {r r' : Reader} (hopen : r.unread ≠ [])
    (h : sortedMembers m (fuel + 1) previous members r = .ok as r') :
    ∃ a rest, r.unread = encode a ++ rest ∧ Fits r.maxLength a := by
  rw [sortedMembers_of_open hopen] at h
  cases hread : m r with
  | error e r₁ => rw [hread] at h; exact absurd h nofun
  | ok a r₁ =>
    obtain ⟨rest, hunread, hfits, -⟩ := hm.eq_ok_iff.mp hread
    exact ⟨a, rest, hunread, hfits⟩

/-- What a set has still to hold where the loop stands: the encodings of `new` and nothing else,
in an order that continues what was read before. -/
structure Continues (encode : α → Bytes) (Fits : UInt64 → α → Prop) (previous : Option Bytes)
    (r : Reader) (new : List α) : Prop where
  unread_eq : r.unread = new.flatMap encode
  fits : ∀ a ∈ new, Fits r.maxLength a
  previous_le : ∀ a ∈ new, ∀ p ∈ previous, Bytes.le p (encode a) = true
  pairwise : new.Pairwise fun a b ↦ Bytes.le (encode a) (encode b) = true

theorem sortedMembers_eq_ok_iff_of_empty (hne : ∀ a, encode a ≠ []) {fuel : Nat}
    {previous : Option Bytes} {members as : List α} {r r' : Reader} (hnil : r.unread = []) :
    sortedMembers m fuel previous members r = .ok as r' ↔
      ∃ new, as = members.reverse ++ new ∧ Continues encode Fits previous r new
        ∧ r' = r.nested [] := by
  have hr : r.nested [] = r := by rw [← hnil, Reader.nested_unread]
  rw [sortedMembers_of_empty hnil, EStateM.Result.ok.injEq, hr]
  constructor
  · rintro ⟨rfl, rfl⟩
    exact ⟨[], (List.append_nil _).symm, ⟨hnil, by simp, by simp, List.Pairwise.nil⟩, rfl⟩
  · rintro ⟨new, rfl, hnew, rfl⟩
    cases new with
    | nil => exact ⟨(List.append_nil _).symm, rfl⟩
    | cons a new =>
      have hunread := hnew.unread_eq
      rw [hnil, List.flatMap_cons, eq_comm, List.append_eq_nil_iff] at hunread
      exact absurd hunread.1 (hne a)

section Sets

variable (hm : Exact m encode Fits) (hne : ∀ a, encode a ≠ [])

include hm hne

/-- One turn of the loop. The member is compared with the one before it after it was read. -/
theorem Exact.sortedMembers_member {fuel : Nat} {previous : Option Bytes} {members : List α}
    {r : Reader} {a : α} {rest : Bytes} (hunread : r.unread = encode a ++ rest)
    (hfits : Fits r.maxLength a) :
    sortedMembers m (fuel + 1) previous members r
      = if previous.any fun p ↦ Bytes.compare p (encode a) = .gt then
          .error .nonCanonicalSetOrder (r.nested rest)
        else sortedMembers m fuel (some (encode a)) (a :: members) (r.nested rest) := by
  have hopen : r.unread ≠ [] := by
    rw [hunread]
    exact fun h ↦ hne a (List.append_eq_nil_iff.mp h).1
  have hread : m r = .ok a (r.nested rest) := hm.eq_ok_iff.mpr ⟨rest, hunread, hfits, rfl⟩
  have hmember := hm.take_eq hread
  rw [sortedMembers_of_open hopen, hread]
  dsimp only
  rw [hmember]

omit hm in
/-- Each member takes at least one byte, so the fuel does not run out. -/
theorem remaining_nested_le {fuel : Nat} {r : Reader} {a : α} {rest : Bytes}
    (hunread : r.unread = encode a ++ rest) (hfuel : r.remaining ≤ fuel + 1) :
    (r.nested rest).remaining ≤ fuel := by
  have hpos := List.length_pos_iff.mpr (hne a)
  rw [Reader.remaining, hunread, List.length_append] at hfuel
  rw [Reader.remaining, Reader.unread_nested]
  omega

omit hm hne in
/-- A member and what continues the set behind it. -/
theorem continues_cons_iff {previous : Option Bytes} {r : Reader} {a : α} {rest : Bytes}
    {new : List α} (hunread : r.unread = encode a ++ rest) (hfits : Fits r.maxLength a) :
    Continues encode Fits previous r (a :: new) ↔
      (∀ p ∈ previous, Bytes.le p (encode a) = true)
        ∧ Continues encode Fits (some (encode a)) (r.nested rest) new := by
  constructor
  · rintro ⟨hall, hfits, hle, hsorted⟩
    rw [List.flatMap_cons, hunread] at hall
    obtain ⟨hprev, -⟩ := List.forall_mem_cons.mp hle
    obtain ⟨hfirst, hsorted⟩ := List.pairwise_cons.mp hsorted
    refine ⟨hprev, List.append_cancel_left hall, (List.forall_mem_cons.mp hfits).2, ?_, hsorted⟩
    intro b hb p hp
    obtain rfl := Option.mem_some_iff.mp hp
    exact hfirst b hb
  · rintro ⟨hprev, hall, hrest, hle, hsorted⟩
    refine ⟨?_, List.forall_mem_cons.mpr ⟨hfits, hrest⟩, ?_, ?_⟩
    · rw [hunread, List.flatMap_cons, ← hall, Reader.unread_nested]
    · -- The new member stands between the one before it and those after it.
      refine List.forall_mem_cons.mpr ⟨hprev, fun b hb p hp ↦ ?_⟩
      exact Bytes.le_trans (hprev p hp) (hle b hb _ rfl)
    · exact List.pairwise_cons.mpr ⟨fun b hb ↦ hle b hb _ rfl, hsorted⟩

/-- From any state of the loop: the members still to come are those whose encodings are left. -/
theorem Exact.sortedMembers_eq_ok_iff {fuel : Nat} {previous : Option Bytes} {members as : List α}
    {r r' : Reader} (hfuel : r.remaining ≤ fuel) :
    sortedMembers m fuel previous members r = .ok as r' ↔
      ∃ new, as = members.reverse ++ new ∧ Continues encode Fits previous r new
        ∧ r' = r.nested [] := by
  -- The fuel is spent on members, each of which takes at least one byte of what remains.
  induction fuel generalizing previous members r with
  | zero =>
    have hnil : r.unread = [] := List.eq_nil_of_length_eq_zero (Nat.le_zero.mp hfuel)
    exact sortedMembers_eq_ok_iff_of_empty hne hnil
  | succ fuel ih =>
    by_cases hnil : r.unread = []
    · exact sortedMembers_eq_ok_iff_of_empty hne hnil
    · constructor
      · intro h
        obtain ⟨a, rest, hunread, hfits⟩ := hm.exists_member hnil h
        rw [hm.sortedMembers_member hne hunread hfits] at h
        split at h
        · exact absurd h nofun
        · rename_i hprev
          obtain ⟨new, rfl, hnew, rfl⟩ := (ih (remaining_nested_le hne hunread hfuel)).mp h
          refine ⟨a :: new, by rw [List.reverse_cons, List.append_assoc]; rfl, ?_, rfl⟩
          exact (continues_cons_iff hunread hfits).mpr ⟨previous_le_iff.mp hprev, hnew⟩
      · rintro ⟨new, rfl, hnew, rfl⟩
        cases new with
        | nil => exact absurd hnew.unread_eq hnil
        | cons a new =>
          have hunread := hnew.unread_eq
          rw [List.flatMap_cons] at hunread
          have hfits := hnew.fits a List.mem_cons_self
          obtain ⟨hprev, hnew⟩ := (continues_cons_iff hunread hfits).mp hnew
          rw [hm.sortedMembers_member hne hunread hfits, if_neg (previous_le_iff.mpr hprev)]
          refine (ih (remaining_nested_le hne hunread hfuel)).mpr ⟨new, ?_, hnew, rfl⟩
          rw [List.reverse_cons, List.append_assoc]
          rfl

/-- A set is read from the encodings of its members, one after the other and in order. -/
theorem Exact.set_fills_iff {r : Reader} {as : List α} :
    Fills (set m) r as ↔
      r.unread = as.flatMap encode ∧ (∀ a ∈ as, Fits r.maxLength a)
        ∧ as.Pairwise (fun a b ↦ Bytes.le (encode a) (encode b) = true) := by
  have hset : set m r = sortedMembers m r.remaining none [] r := by
    rw [set, bind_of_ok (get_apply r)]
  constructor
  · rintro ⟨r', h, -⟩
    rw [hset, hm.sortedMembers_eq_ok_iff hne (Nat.le_refl _)] at h
    obtain ⟨new, rfl, hnew, -⟩ := h
    exact ⟨hnew.unread_eq, hnew.fits, hnew.pairwise⟩
  · rintro ⟨hunread, hall, hsorted⟩
    refine ⟨r.nested [], ?_, rfl⟩
    rw [hset, hm.sortedMembers_eq_ok_iff hne (Nat.le_refl _)]
    exact ⟨as, rfl, ⟨hunread, hall, fun _ _ _ hp ↦ absurd hp nofun, hsorted⟩, rfl⟩

omit hm hne in
theorem exists_fuel {fuel : Nat} {r : Reader} (hfuel : r.remaining ≤ fuel)
    (hnonempty : r.unread ≠ []) : ∃ k, fuel = k + 1 :=
  Nat.exists_eq_succ_of_ne_zero <| Nat.pos_iff_ne_zero.mp <|
    Nat.lt_of_lt_of_le (List.length_pos_iff.mpr hnonempty) hfuel

/-- The loop fails where a member fails, once the members in front of it are read. -/
theorem Exact.sortedMembers_fails {fuel : Nat} {previous : Option Bytes} {members new : List α}
    {r : Reader} {rest : Bytes} {e : DecodeError} (hfuel : r.remaining ≤ fuel)
    (hunread : r.unread = new.flatMap encode ++ rest) (hrest : rest ≠ [])
    (hnew : Continues encode Fits previous (r.nested (new.flatMap encode)) new)
    (hfails : Fails m (r.nested rest) e) : Fails (sortedMembers m fuel previous members) r e := by
  -- The induction is on the members that are read; the failing one comes when none is left.
  induction new generalizing fuel previous members r with
  | nil =>
    have hunread : r.unread = rest := hunread
    obtain ⟨fuel, rfl⟩ := exists_fuel hfuel (hunread ▸ hrest)
    rw [← hunread, Reader.nested_unread] at hfails
    obtain ⟨r', hread⟩ := hfails
    exact ⟨r', by rw [sortedMembers_of_open (hunread ▸ hrest), hread]⟩
  | cons a new ih =>
    have hfits := hnew.fits a List.mem_cons_self
    obtain ⟨hprev, hnew⟩ := (continues_cons_iff List.flatMap_cons hfits).mp hnew
    rw [List.flatMap_cons, List.append_assoc] at hunread
    obtain ⟨fuel, rfl⟩ := exists_fuel hfuel fun h ↦
      hne a (List.append_eq_nil_iff.mp (hunread.symm.trans h)).1
    rw [Fails, hm.sortedMembers_member hne hunread hfits, if_neg (previous_le_iff.mpr hprev)]
    exact ih (remaining_nested_le hne hunread hfuel) rfl hnew hfails

/-- A set fails where a member fails, once the members in front of it are read in order. -/
theorem Exact.set_fails {r : Reader} {as : List α} {rest : Bytes} {e : DecodeError}
    (hunread : r.unread = as.flatMap encode ++ rest) (hrest : rest ≠ [])
    (hfits : ∀ a ∈ as, Fits r.maxLength a)
    (hsorted : as.Pairwise fun a b ↦ Bytes.le (encode a) (encode b) = true)
    (hfails : Fails m (r.nested rest) e) : Fails (set m) r e := by
  refine Fails.bind_of_ok (get_apply r) ?_
  exact hm.sortedMembers_fails hne (Nat.le_refl _) hunread hrest
    ⟨rfl, hfits, fun _ _ _ hp ↦ absurd hp nofun, hsorted⟩ hfails

/-- The loop refuses members that do not continue the order, wherever the first of them stands. -/
theorem Exact.sortedMembers_fails_of_not_continues {fuel : Nat} {previous : Option Bytes}
    {members new : List α} {r : Reader} (hfuel : r.remaining ≤ fuel)
    (hunread : r.unread = new.flatMap encode) (hfits : ∀ a ∈ new, Fits r.maxLength a)
    (hnew : ¬ Continues encode Fits previous r new) :
    Fails (sortedMembers m fuel previous members) r .nonCanonicalSetOrder := by
  -- Each turn takes a member that may follow, until there is one that may not.
  induction new generalizing fuel previous members r with
  | nil => exact absurd ⟨hunread, hfits, by simp, List.Pairwise.nil⟩ hnew
  | cons a new ih =>
    obtain ⟨ha, hrest⟩ := List.forall_mem_cons.mp hfits
    rw [List.flatMap_cons] at hunread
    obtain ⟨fuel, rfl⟩ := exists_fuel hfuel fun h ↦
      hne a (List.append_eq_nil_iff.mp (hunread.symm.trans h)).1
    rw [Fails, hm.sortedMembers_member hne hunread ha]
    split
    · exact ⟨_, rfl⟩
    · rename_i hprev
      refine ih (remaining_nested_le hne hunread hfuel) rfl hrest fun hcontinues ↦ hnew ?_
      exact (continues_cons_iff hunread ha).mpr ⟨previous_le_iff.mp hprev, hcontinues⟩

/-- A set whose members can all be read fails if they are out of order. -/
theorem Exact.set_fails_of_not_pairwise {r : Reader} {as : List α}
    (hunread : r.unread = as.flatMap encode) (hfits : ∀ a ∈ as, Fits r.maxLength a)
    (hsorted : ¬ as.Pairwise fun a b ↦ Bytes.le (encode a) (encode b) = true) :
    Fails (set m) r .nonCanonicalSetOrder := by
  refine Fails.bind_of_ok (get_apply r) ?_
  exact hm.sortedMembers_fails_of_not_continues hne (Nat.le_refl _) hunread hfits
    fun hcontinues ↦ hsorted hcontinues.pairwise

end Sets

end Read

end Hashlock.Der
