import Hashlock.Bytes

/-!
# Hexadecimal text

Byte strings are shown as two lowercase digits a byte; digits of either case are read back. A text
that is not hexadecimal is refused with its first fault: an odd number of digits comes before a
character that is no digit, and the latter is reported by position.

Texts are read as UTF-8, so positions and the parity count bytes, and an offending byte is shown
as the character with that code point.
-/

namespace Hashlock

/-- Why a text is not the hexadecimal form of a byte string. -/
inductive HexError where
  /-- The text has an odd number of bytes. -/
  | oddLength
  /-- The byte at this position is not a digit. -/
  | invalidCharacter (byte : UInt8) (position : Nat)
  /-- The text is hexadecimal but stands for another number of bytes than required. -/
  | invalidLength
deriving DecidableEq, Repr

namespace Hex

/-! ## Writing -/

/-- The lowercase digit for a number below sixteen. -/
def digit (n : UInt8) : Char :=
  if n < 10 then Char.ofNat (48 + n.toNat) else Char.ofNat (87 + n.toNat)

/-- Two lowercase digits a byte. -/
def encode (bs : Bytes) : String :=
  String.ofList (bs.flatMap fun (b : UInt8) ↦ [digit (b >>> 4), digit (b &&& 0x0f)])

/-- A byte as two lowercase digits. -/
def byte (b : UInt8) : String := encode [b]

/-- The hexadecimal digits of a number, without leading zeros. -/
def number (n : Nat) : String := String.ofList (Nat.toDigits 16 n)

/-! ## Reading -/

/-- The value of a digit of either case, given as an ASCII byte. -/
def digit? (b : UInt8) : Option UInt8 :=
  if 48 ≤ b ∧ b ≤ 57 then some (b - 48)
  else if 97 ≤ b ∧ b ≤ 102 then some (b - 87)
  else if 65 ≤ b ∧ b ≤ 70 then some (b - 55)
  else none

/-- The bytes that consecutive pairs of half-bytes form. -/
def joinPairs : List UInt8 → Bytes
  | hi :: lo :: rest => (hi <<< 4 ||| lo) :: joinPairs rest
  | _ => []

/-- Read hexadecimal text. -/
def decode (s : String) : Except HexError Bytes :=
  let text := Bytes.ofText s
  if text.length % 2 = 1 then .error .oddLength
  else do
    let halves ← text.zipIdx.mapM fun (b, i) ↦
      match digit? b with
      | some d => Except.ok d
      | none => .error (.invalidCharacter b i)
    return joinPairs halves

end Hex

/-! ## Error texts -/

/-- The character with code point `b`, between single quotes, as an error shows it: control
characters, blanks that do not print and soft hyphens by number, quote and backslash escaped. -/
def HexError.quoted (b : UInt8) : String :=
  let body :=
    if b = 0 then "\\0"
    else if b = 9 then "\\t"
    else if b = 10 then "\\n"
    else if b = 13 then "\\r"
    else if b = 39 then "\\'"
    else if b = 92 then "\\\\"
    else if b < 32 ∨ 127 ≤ b ∧ b ≤ 160 ∨ b = 173 then "\\u\x7b" ++ Hex.number b.toNat ++ "\x7d"
    else String.singleton (Char.ofNat b.toNat)
  "'" ++ body ++ "'"

/-- The text of a hexadecimal error. -/
def HexError.message : HexError → String
  | .oddLength => "Odd number of digits"
  | .invalidCharacter b i =>
    "Invalid character " ++ quoted b ++ " at position " ++ Nat.repr i
  | .invalidLength => "Invalid string length"

end Hashlock
