import Hashlock.Text.Base64

/-!
# PEM text

A value between a line that begins and a line that ends it, both with a label, as base64 in lines
of 64 characters. Lines end with a line feed, a carriage return, or both.

Text before the first boundary line is skipped, unless a NUL character stands in it; after the
last boundary line there may be one line end and nothing else. All lines of base64 but the last
have exactly 64 characters, and padding stands in the last line only. An empty line may follow full
ones; where it has a line end besides the one in front of the boundary, it is itself the last line,
so that nothing before it is padded.
-/

namespace Hashlock.Pem

/-- The number of characters in a line of base64. -/
def lineWidth : Nat := 64

/-- How a boundary line begins. -/
def beginMark : List Char := "-----BEGIN ".toList

/-- How the last boundary line begins. -/
def endMark : List Char := "-----END ".toList

/-- How boundary lines end. -/
def dashes : List Char := "-----".toList

/-! ## Line ends -/

/-- What follows a line end at the front. -/
def afterBreak? : List Char → Option (List Char)
  | '\r' :: '\n' :: rest => some rest
  | '\r' :: rest => some rest
  | '\n' :: rest => some rest
  | _ => none

theorem length_lt_of_afterBreak? {text rest : List Char} (h : afterBreak? text = some rest) :
    rest.length < text.length := by
  unfold afterBreak? at h
  split at h <;> cases h <;> simp only [List.length_cons] <;> omega

/-- What precedes a line end at the back. -/
def beforeBreak? (text : List Char) : Option (List Char) :=
  match text.reverse with
  | '\n' :: '\r' :: rest => some rest.reverse
  | '\n' :: rest => some rest.reverse
  | '\r' :: rest => some rest.reverse
  | _ => none

/-! ## Boundaries -/

/-- What follows `mark` at the front. -/
def after? (mark text : List Char) : Option (List Char) :=
  if mark.isPrefixOf text then some (text.drop mark.length) else none

/-- What precedes `mark` at the back. -/
def before? (mark text : List Char) : Option (List Char) :=
  if mark.isSuffixOf text then some (text.take (text.length - mark.length)) else none

/-- The text from the first boundary that starts a line, given what follows a line feed. -/
def skipPreamble? : List Char → Option (List Char)
  | [] => none
  | c :: rest =>
    if c = Char.ofNat 0 then none
    else if c = '\n' ∧ beginMark.isPrefixOf rest then some rest
    else skipPreamble? rest

/-- The lines between the boundaries with a given label. -/
def body? (label : String) (text : String) : Option (List Char) := do
  let text := text.toList
  let start ← if beginMark.isPrefixOf text then some text else skipPreamble? text
  let headed ← after? (beginMark ++ label.toList ++ dashes) start
  let lines ← afterBreak? headed
  let footed := (beforeBreak? lines).getD lines
  beforeBreak? (← before? (endMark ++ label.toList ++ dashes) footed)

/-! ## Lines -/

/-- The lines of a text: full ones, and a last one that may be shorter and whose line end does not
count. A line end behind the last full line opens no other line, a second one does. -/
def lines? (text : List Char) : Option (List (List Char)) :=
  if text.length ≤ lineWidth then some [(beforeBreak? text).getD text]
  else
    match _h : afterBreak? (text.drop lineWidth) with
    | none => none
    | some [] => some [text.take lineWidth]
    | some (c :: rest) => (lines? (c :: rest)).map (text.take lineWidth :: ·)
termination_by text.length
decreasing_by
  have := length_lt_of_afterBreak? _h
  simp only [List.length_drop] at this
  omega

/-- The bytes of lines of base64, of which only the last may be padded. -/
def decodeLines? : List (List Char) → Option Bytes
  | [] => some []
  | [last] => Base64.decode? last
  | line :: rest => do return (← Base64.decodeUnpadded? line) ++ (← decodeLines? rest)

/-- The bytes between the boundaries with a given label. -/
def decode? (label : String) (text : String) : Option Bytes := do
  decodeLines? (← lines? (← body? label text))

end Hashlock.Pem
