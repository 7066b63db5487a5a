/-!
# Repeated operations

`power op one x n` combines `n` copies of `x`, by doubling along the binary digits of `n`. Powers in
a ring of residues and multiples of a point on a curve are both of this form.
-/

namespace Hashlock

/-- The binary digits of a number, the highest first; zero has none. -/
def binaryDigits (n : Nat) : List Bool :=
  if n = 0 then [] else (List.range (n.log2 + 1)).reverse.map n.testBit

/-- The combination of `n` copies of `x` under `op`, where `one` is that of no copies. -/
@[specialize] def power (op : α → α → α) (one x : α) (n : Nat) : α :=
  (binaryDigits n).foldl (fun acc digit ↦
    let doubled := op acc acc
    if digit then op doubled x else doubled) one

/-- `base ^ exponent` modulo `modulus`. -/
def powerMod (base exponent modulus : Nat) : Nat :=
  power (fun a b ↦ a * b % modulus) (1 % modulus) (base % modulus) exponent

end Hashlock
