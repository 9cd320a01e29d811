import NixStore.Text.Utf8

/-!
# Tokens of archives

An archive is a sequence of tokens. A token is a byte string behind its length, a little-endian
number of eight bytes, and in front of as many zeros as fill it up to a multiple of eight bytes.
-/

namespace NixStore.Archive

/-- The lowest `n` bytes of a number, the lowest first. -/
def littleEndian : (n : Nat) → Nat → Bytes
  | 0, _ => []
  | n + 1, k => k.toUInt8 :: littleEndian n (k / 256)

/-- The length field of a string of `n` bytes. -/
def lengthField (n : Nat) : Bytes := littleEndian 8 n

def padding (n : Nat) : Bytes := List.replicate ((8 - n % 8) % 8) 0

def token (bs : Bytes) : Bytes := lengthField bs.length ++ bs ++ padding bs.length

def word (s : String) : Bytes := token (Text.utf8 (text s))

theorem length_littleEndian (n k : Nat) : (littleEndian n k).length = n := by
  induction n generalizing k with
  | zero => rfl
  | succ n ih => simp [littleEndian, ih]

end NixStore.Archive
