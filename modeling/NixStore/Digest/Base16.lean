import NixStore.Text.Digits

/-!
# Base 16

Two digits a byte, the high half first. They are written in lower case and read in either case.
-/

namespace NixStore.Base16

def alphabet : Text := text "0123456789abcdef"

def digit (n : Nat) : Char := alphabet.getD n '0'

def encode (bs : Bytes) : Text := bs.flatMap fun b ↦ [digit (b.toNat / 16), digit (b.toNat % 16)]

def byte? (high low : Char) : Option UInt8 := do
  return (← Text.ofDigits? 16 [high, low]).toUInt8

def decode? : Text → Option Bytes
  | [] => some []
  | [_] => none
  | high :: low :: rest => do return (← byte? high low) :: (← decode? rest)

theorem length_encode (bs : Bytes) : (encode bs).length = 2 * bs.length := by
  induction bs with
  | nil => rfl
  | cons b bs ih => simp only [encode, List.flatMap_cons, List.length_append, List.length_cons,
      List.length_nil] at ih ⊢; omega

end NixStore.Base16
