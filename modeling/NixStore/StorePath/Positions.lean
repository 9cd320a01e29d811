import NixStore.StorePath.Rules

/-!
# Reading by positions

The parser once more, as a reader who only ever asks for the byte at a position or for the bytes
between two of them. A position may be out of range, and a position in a text may lie within a
character; then there is no answer at all, neither a path nor an error.
-/

namespace NixStore

namespace Text

/-- Cuts a text at a position in its encoding, if that lies between two characters. -/
def cutAt? : Nat → Text → Option (Text × Text)
  | 0, t => some ([], t)
  | _ + 1, [] => none
  | n + 1, c :: t =>
    if (String.utf8EncodeChar c).length ≤ n + 1 then
      (cutAt? (n + 1 - (String.utf8EncodeChar c).length) t).map fun (before, rest) ↦
        (c :: before, rest)
    else none

end Text

namespace StorePath

/-- The bytes from one position up to another, if there are so many. -/
def slice? (bs : Bytes) (start stop : Nat) : Option Bytes :=
  if start ≤ stop ∧ stop ≤ bs.length then some ((bs.take stop).drop start) else none

/-- Looks for the first byte of a part that is not allowed, and refuses it with its position. -/
def checkBytes (allowed part : Bytes) (refuse : Nat → Char → StorePathError) :
    ExceptT StorePathError Option Unit :=
  match part.findIdx? (· ∉ allowed) with
  | none => pure ()
  | some i => do
    let b ← (part[i]? : Option UInt8)
    throw (refuse i (Char.ofNat b.toNat))

/-- Looks at the length of a name, then at its bytes, then at the name as a whole. -/
def checkName (name : Bytes) : ExceptT StorePathError Option Unit :=
  if maxNameLength < name.length then throw (.nameTooLong name.length)
  else do
    checkBytes nameBytes name fun i c ↦ .badNameCharacter (hashPartLength + 1 + i) c
    if Reserved name then throw (.reservedName (Text.ofLatin1 name))

/-- Reads the bytes of a path, and keeps each as a character. -/
def readAt (bs : Bytes) : ExceptT StorePathError Option Text :=
  if bs.length < hashPartLength + 2 then throw (.tooShort bs.length)
  else do
    let hash ← slice? bs 0 hashPartLength
    checkBytes digitBytes hash .badDigit
    let separator ← (bs[hashPartLength]? : Option UInt8)
    if separator ≠ hyphen then throw (.missingSeparator (Char.ofNat separator.toNat))
    else do
      let name ← slice? bs (hashPartLength + 1) bs.length
      checkName name
      return Text.ofLatin1 bs

end StorePath

end NixStore
