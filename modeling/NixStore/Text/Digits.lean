import NixStore.Text.Basic

/-!
# Digits

Digits of bases up to sixteen, letters in either case, and the numbers that they write.
-/

namespace NixStore.Text

/-- The number of a digit, in bases up to sixteen. -/
def digit? (base : Nat) (c : Char) : Option Nat :=
  let n :=
    if c.isDigit then c.toNat - '0'.toNat
    else if 'a' ≤ c && c ≤ 'f' then c.toNat - 'a'.toNat + 10
    else if 'A' ≤ c && c ≤ 'F' then c.toNat - 'A'.toNat + 10
    else 16
  if n < base then some n else none

def ofDigits? (base : Nat) (digits : List Char) : Option Nat :=
  digits.foldlM (fun n c ↦ (digit? base c).map (base * n + ·)) 0

end NixStore.Text
