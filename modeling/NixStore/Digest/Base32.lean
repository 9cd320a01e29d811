import NixStore.Text.Basic

/-!
# Base 32

The digits in which a store writes hashes: an alphabet of thirty-two digits and letters without
`e`, `o`, `u` and `t`. The bits of the bytes, the lowest of each byte first, are cut into groups
of five, the last one filled up with zeros, and the digits of the groups are written last group
first. So a byte string is written as the number whose base 256 digits, lowest first, it holds.
-/

namespace NixStore.Base32

def alphabet : Text := text "0123456789abcdfghijklmnpqrsvwxyz"

def isDigit (c : Char) : Bool := alphabet.contains c

theorem isDigit_iff {c : Char} : isDigit c ↔ c ∈ alphabet := by simp [isDigit]

/-- The digit of a number below thirty-two. -/
def digit (n : Nat) : Char := alphabet.getD n '0'

def encodeLength (n : Nat) : Nat := (8 * n + 4) / 5

def byteBits (b : UInt8) : List Bool := (List.range 8).map b.toNat.testBit

/-- The bits of a string, each byte's lowest first. -/
def bits (bs : Bytes) : List Bool := bs.flatMap byteBits

/-- The number with the given bits, the lowest first. -/
def ofBits : List Bool → Nat
  | [] => 0
  | b :: rest => b.toNat + 2 * ofBits rest

/-- The numbers of the groups of five bits. -/
def groups : List Bool → List Nat
  | [] => []
  | b :: rest => ofBits (b :: rest.take 4) :: groups (rest.drop 4)
termination_by bs => bs.length

def encode (bs : Bytes) : Text := ((groups (bits bs)).map digit).reverse

theorem length_groups (bs : List Bool) : (groups bs).length = (bs.length + 4) / 5 := by
  fun_induction groups bs with
  | case1 => rfl
  | case2 b rest ih =>
    simp only [List.length_cons, ih, List.length_drop]
    omega

theorem length_bits (bs : Bytes) : (bits bs).length = 8 * bs.length := by
  induction bs with
  | nil => rfl
  | cons b bs ih =>
    simp only [bits, List.flatMap_cons, List.length_append, byteBits, List.length_map,
      List.length_range, List.length_cons] at ih ⊢
    omega

theorem length_encode (bs : Bytes) : (encode bs).length = encodeLength bs.length := by
  simp [encode, length_groups, length_bits, encodeLength]

/-! ## Numbers -/

/-- The number whose base 256 digits, the lowest first, a byte string holds. -/
def number : Bytes → Nat
  | [] => 0
  | b :: rest => b.toNat + 256 * number rest

def digitValue? (c : Char) : Option Nat := alphabet.findIdx? (· = c)

/-- The number that a text writes, the highest digit first. -/
def read? (t : Text) : Option Nat := t.foldlM (fun n c ↦ (digitValue? c).map (32 * n + ·)) 0

end NixStore.Base32
