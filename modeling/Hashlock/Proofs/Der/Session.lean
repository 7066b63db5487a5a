import Hashlock.Proofs.Der.Cursor
import Hashlock.Proofs.Der.Refusal

/-!
# Sessions of readers

Callers may use a reader in any way they like: they may ignore an error and read on, look at what is
left, and open more readers over whatever bytes they have. A session is a list of cursors, of which
any may be asked anything and in any order.

No session has a fault. One operation keeps every cursor within its buffer and moves it forward or
not at all (`Session.exists_step`), so any number of operations does (`Session.exists_run`). And
whatever was asked, the cursors stand where readers would that were asked the same.
-/

namespace Hashlock.Der

/-- What can be asked of a reader. -/
inductive Operation
  | tag
  | length
  | tlv
  | expect (expected : Tag)
  | peekTag
  | remaining
  | finish
  /-- Open another reader over `value`, with the same ceiling. -/
  | nested (value : Bytes)

/-- What a reader answers. -/
inductive Answer
  | tag (t : Tag)
  | length (n : Nat)
  | tlv (t : Tag) (value : Bytes)
  | content (value : Bytes)
  | peeked (t? : Option Tag)
  | remaining (n : Nat)
  | finished
  | opened

namespace Operation

/-- An operation of a reader. -/
def read : Operation → Read Answer
  | .tag => return .tag (← Read.tag)
  | .length => return .length (← Read.length)
  | .tlv => do
    let (t, value) ← Read.tlv
    return .tlv t value
  | .expect expected => return .content (← Read.expect expected)
  | .peekTag => do
    let r ← get
    return .peeked r.peekTag?
  | .remaining => do
    let r ← get
    return .remaining r.remaining
  | .finish => do
    Read.finish
    return .finished
  | .nested _ => return .opened

/-- The same operation of a cursor. -/
def scan : Operation → Scan Answer
  | .tag => return .tag (← Scan.tag)
  | .length => return .length (← Scan.length)
  | .tlv => do
    let (t, value) ← Scan.tlv
    return .tlv t value
  | .expect expected => return .content (← Scan.expect expected)
  | .peekTag => do
    let c ← get
    return .peeked c.peekTag?
  | .remaining => return .remaining (← Scan.remaining)
  | .finish => do
    Scan.finish
    return .finished
  | .nested _ => return .opened

/-- The values over which an operation opens readers. -/
def opens : Operation → List Bytes
  | .nested value => [value]
  | _ => []

/-- **Every operation of a cursor does what that of a reader does.** -/
theorem mirrors (op : Operation) : Scan.Mirrors op.scan op.read := by
  cases op with
  | tag => exact Scan.mirrors_tag.bind fun _ ↦ Scan.mirrors_pure _
  | length => exact Scan.mirrors_length.bind fun _ ↦ Scan.mirrors_pure _
  | tlv => exact Scan.mirrors_tlv.bind fun _ ↦ Scan.mirrors_pure _
  | expect expected => exact (Scan.mirrors_expect expected).bind fun _ ↦ Scan.mirrors_pure _
  | finish => exact Scan.mirrors_finish.bind fun _ ↦ Scan.mirrors_pure _
  | nested value => exact Scan.mirrors_pure _
  | peekTag =>
    intro c h
    rw [scan, read, Read.bind_of_ok (Read.get_apply _), Cursor.peekTag?_reader]
    exact Scan.mirrors_pure (Answer.peeked c.peekTag?) h
  | remaining =>
    intro c h
    rw [scan, read, Read.bind_of_ok (Read.get_apply _), Scan.bind_of_ok (Scan.remaining_apply h)]
    exact Scan.mirrors_pure (Answer.remaining c.reader.remaining) h

/-- Where an operation leaves a reader. -/
def leave (op : Operation) (r : Reader) : Reader :=
  match op.read r with
  | .ok _ r' => r'
  | .error _ r' => r'

/-- Where an operation leaves a cursor, unless it has a fault. -/
def leave? (op : Operation) (c : Cursor) : Option Cursor :=
  match op.scan c with
  | .ok _ c' => some c'
  | .error (.reported _) c' => some c'
  | .error .outOfBounds _ => none

theorem exists_leave? (op : Operation) {c : Cursor} (h : c.InBounds) :
    ∃ c', op.leave? c = some c' ∧ c.Forward c' ∧ c'.reader = op.leave c.reader := by
  have hfollows := op.mirrors h
  generalize hscan : op.scan c = result, hread : op.read c.reader = result' at hfollows
  cases hfollows with
  | @ok _ c' hforward => exact ⟨c', by rw [leave?, hscan], hforward, by rw [leave, hread]⟩
  | @error _ c' hforward => exact ⟨c', by rw [leave?, hscan], hforward, by rw [leave, hread]⟩

end Operation

/-! ## Sessions -/

/-- The cursors of a session, in the order in which they were opened. -/
abbrev Session := List Cursor

namespace Session

/-- Ask something of the reader at `i`. Nothing is done if there is none. -/
def move (rs : List Reader) (i : Nat) (op : Operation) : List Reader :=
  match rs[i]? with
  | none => rs
  | some r => rs.set i (op.leave r) ++ op.opens.map r.nested

/-- Ask something of the cursor at `i`. Nothing comes of it if that has a fault. -/
def step (cs : Session) (i : Nat) (op : Operation) : Option Session :=
  match cs[i]? with
  | none => some cs
  | some c => (op.leave? c).map fun c' ↦ cs.set i c' ++ op.opens.map c.nested

/-- Ask one thing after the other. -/
def run (cs : Session) : List (Nat × Operation) → Option Session
  | [] => some cs
  | (i, op) :: actions => (cs.step i op).bind fun cs' ↦ run cs' actions

/-- Every cursor is within its buffer. -/
def InBounds (cs : Session) : Prop := ∀ c ∈ cs, c.InBounds

/-- No cursor is lost, and each has moved forward or not at all. -/
def Forward (cs cs' : Session) : Prop :=
  ∀ (i : Nat) (c : Cursor), cs[i]? = some c → ∃ c' : Cursor, cs'[i]? = some c' ∧ c.Forward c'

/-- What comes of a session: it is within bounds, has moved forward, and stands at some readers. -/
structure Reaches (cs cs' : Session) (rs : List Reader) : Prop where
  inBounds : cs'.InBounds
  forward : cs.Forward cs'
  map_reader : cs'.map Cursor.reader = rs

variable {cs cs' cs'' : Session}

theorem InBounds.set (h : cs.InBounds) (i : Nat) {c : Cursor} (hc : c.InBounds) :
    InBounds (cs.set i c) := by
  intro d hd
  rcases List.mem_or_eq_of_mem_set hd with hd | rfl
  · exact h d hd
  · exact hc

/-- A cursor that is opened is in front of its value. -/
theorem InBounds.append_nested (h : cs.InBounds) (c : Cursor) (values : List Bytes) :
    InBounds (cs ++ values.map c.nested) := by
  intro d hd
  rcases List.mem_append.mp hd with hd | hd
  · exact h d hd
  · obtain ⟨value, -, rfl⟩ := List.mem_map.mp hd
    exact Cursor.inBounds_start _ _

theorem Forward.refl (h : cs.InBounds) : cs.Forward cs :=
  fun _ c hc ↦ ⟨c, hc, .refl (h c (List.mem_of_getElem? hc))⟩

theorem Forward.trans (h : cs.Forward cs') (h' : cs'.Forward cs'') : cs.Forward cs'' := by
  intro i c hc
  obtain ⟨c', hc', hforward⟩ := h i c hc
  obtain ⟨c'', hc'', hforward'⟩ := h' i c' hc'
  exact ⟨c'', hc'', hforward.trans hforward'⟩

/-- Cursors that are opened are of no concern to those that are there. -/
theorem Forward.append (h : cs.Forward cs') (opened : List Cursor) :
    cs.Forward (cs' ++ opened) := by
  intro i c hc
  obtain ⟨c', hc', hforward⟩ := h i c hc
  have hi : i < cs'.length := (List.getElem?_eq_some_iff.mp hc').1
  exact ⟨c', by rw [List.getElem?_append_left hi, hc'], hforward⟩

theorem Forward.set (h : cs.InBounds) {i : Nat} {c c' : Cursor} (hi : cs[i]? = some c)
    (hforward : c.Forward c') : cs.Forward (cs.set i c') := by
  intro j d hd
  by_cases hij : i = j
  · subst hij
    obtain rfl := Option.some.inj (hi.symm.trans hd)
    exact ⟨c', List.getElem?_set_self (List.getElem?_eq_some_iff.mp hi).1, hforward⟩
  · exact ⟨d, by rw [List.getElem?_set_ne hij, hd], .refl (h d (List.mem_of_getElem? hd))⟩

/-- **One operation has no fault**, and it leaves the cursors where it leaves the readers. -/
theorem exists_step (h : cs.InBounds) (i : Nat) (op : Operation) :
    ∃ cs', cs.step i op = some cs' ∧ cs.Reaches cs' (move (cs.map Cursor.reader) i op) := by
  rw [step, move, List.getElem?_map]
  cases hi : cs[i]? with
  | none => exact ⟨cs, rfl, h, .refl h, rfl⟩
  | some c =>
    obtain ⟨c', hleave, hforward, hreader⟩ := op.exists_leave? (h c (List.mem_of_getElem? hi))
    refine ⟨cs.set i c' ++ op.opens.map c.nested, by dsimp only; rw [hleave]; rfl, ?_, ?_, ?_⟩
    · exact (h.set i hforward.inBounds).append_nested c op.opens
    · exact (Forward.set h hi hforward).append _
    · rw [List.map_append, List.map_set, hreader, List.map_map]
      rfl

/-- **No session has a fault**, whatever is asked in it and however often that failed before. -/
theorem exists_run (h : cs.InBounds) (actions : List (Nat × Operation)) :
    ∃ cs', cs.run actions = some cs'
      ∧ cs.Reaches cs'
        (actions.foldl (fun rs action ↦ move rs action.1 action.2) (cs.map Cursor.reader)) := by
  induction actions generalizing cs with
  | nil => exact ⟨cs, rfl, h, .refl h, rfl⟩
  | cons action actions ih =>
    obtain ⟨cs₁, hstep, hin, hforward, hreaders⟩ := exists_step h action.1 action.2
    obtain ⟨cs', hrun, hreaches⟩ := ih hin
    refine ⟨cs', by rw [run, hstep]; exact hrun, hreaches.inBounds,
      hforward.trans hreaches.forward, ?_⟩
    rw [List.foldl_cons, ← hreaders]
    exact hreaches.map_reader

end Session

end Hashlock.Der
