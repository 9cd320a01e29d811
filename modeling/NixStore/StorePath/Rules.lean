import NixStore.StorePath.Basic

/-!
# The rules of store paths

What the bytes of a store path are, said without reading them: a grammar, and the rules that make it
up in the order in which they are looked at. A rule about single bytes is broken at the first byte
that is not allowed in its part, and the error names that byte with its position in the whole path.
-/

namespace NixStore.StorePath

def digitBytes : Bytes := Text.latin1 Base32.alphabet

def nameAlphabet : Text :=
  NixStore.text "ABCDEFGHIJKLMNOPQRSTUVWXYZabcdefghijklmnopqrstuvwxyz0123456789+-._?="

def nameBytes : Bytes := Text.latin1 nameAlphabet

/-- The byte between the hash part and the name. -/
def hyphen : UInt8 := 0x2D

/-- The byte that refers to directories. -/
def dot : UInt8 := 0x2E

/-- A name is not allowed although its length and its bytes are. -/
def Reserved (name : Bytes) : Prop :=
  name = [dot] ∨ name = [dot, dot] ∨ [dot, hyphen] <+: name ∨ [dot, dot, hyphen] <+: name

instance (name : Bytes) : Decidable (Reserved name) :=
  inferInstanceAs (Decidable (_ ∨ _ ∨ _ ∨ _))

/-- The bytes of store paths. -/
inductive Grammatical : Bytes → Prop
  | intro {hash name : Bytes} (length_hash : hash.length = 32)
      (hash_mem : ∀ b ∈ hash, b ∈ digitBytes)
      (one_le_length : 1 ≤ name.length) (length_le : name.length ≤ 211)
      (name_mem : ∀ b ∈ name, b ∈ nameBytes) (not_reserved : ¬Reserved name) :
      Grammatical (hash ++ hyphen :: name)

/-- From a position on, `b` at `i` is the first byte that is not allowed. -/
structure FirstOutside (allowed bs : Bytes) (start i : Nat) (b : UInt8) : Prop where
  start_le : start ≤ i
  getElem?_eq : bs[i]? = some b
  not_mem : b ∉ allowed
  mem_of_lt : ∀ j, start ≤ j → j < i → ∀ c, bs[j]? = some c → c ∈ allowed

/-- The rules, by what they are about. -/
inductive Rule where
  | length
  | hashPart
  | separator
  | nameLength
  | nameBytes
  | nameReserved

/-- The order in which the rules are looked at. -/
def Rule.all : List Rule := [length, hashPart, separator, nameLength, nameBytes, nameReserved]

/-- Some bytes break a rule, as an error says. -/
inductive Breaks (bs : Bytes) : Rule → StorePathError → Prop
  | length (h : bs.length < 34) : Breaks bs .length (.tooShort bs.length)
  | hashPart {i : Nat} {b : UInt8} (hi : i < 32) (h : FirstOutside digitBytes bs 0 i b) :
      Breaks bs .hashPart (.badDigit i (Char.ofNat b.toNat))
  | separator {b : UInt8} (hb : bs[32]? = some b) (h : b ≠ hyphen) :
      Breaks bs .separator (.missingSeparator (Char.ofNat b.toNat))
  | nameLength (h : 211 < (bs.drop 33).length) :
      Breaks bs .nameLength (.nameTooLong (bs.drop 33).length)
  | nameBytes {i : Nat} {b : UInt8} (h : FirstOutside StorePath.nameBytes bs 33 i b) :
      Breaks bs .nameBytes (.badNameCharacter i (Char.ofNat b.toNat))
  | nameReserved (h : Reserved (bs.drop 33)) :
      Breaks bs .nameReserved (.reservedName (Text.ofLatin1 (bs.drop 33)))

/-- Some bytes do not break a rule. -/
def Keeps (bs : Bytes) (rule : Rule) : Prop := ∀ e, ¬Breaks bs rule e

/-- An error tells of the first rule that some bytes break. -/
def FirstBroken (bs : Bytes) (e : StorePathError) : Prop :=
  ∃ earlier rule later, Rule.all = earlier ++ rule :: later ∧ Breaks bs rule e ∧
    ∀ r ∈ earlier, Keeps bs r

end NixStore.StorePath
