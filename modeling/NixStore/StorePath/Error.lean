import NixStore.Text.Quoted

/-!
# What can be wrong with a store path

The rules of store path names, hash parts and store directories, each with the message that says
how it was broken. Positions count bytes from the start of the whole path.
-/

namespace NixStore

def hashPartLength : Nat := 32

def maxNameLength : Nat := 211

/-- A broken rule, with what broke it. -/
inductive StorePathError where
  | tooShort (length : Nat)
  | badDigit (position : Nat) (found : Char)
  | missingSeparator (found : Char)
  | nameTooLong (length : Nat)
  | badNameCharacter (position : Nat) (found : Char)
  | reservedName (name : Text)
  | notInStore (path storeDir : Text)
  | badHashPartLength (length : Nat)
  | relativeStoreDir (dir : Text)
deriving DecidableEq, Repr

def StorePathError.message : StorePathError → String
  | tooShort n => s!"store path is {n} bytes long, expected at least {hashPartLength + 2}"
  | badDigit i c => s!"invalid character {Text.quoteChar c} at position {i} of the hash part"
  | missingSeparator c => s!"expected '-' after the hash part, found {Text.quoteChar c}"
  | nameTooLong n =>
    s!"store path name is {n} bytes long, at most {maxNameLength} are allowed"
  | badNameCharacter i c =>
    s!"invalid symbol {Text.quoteChar c} at position {i} of the store path name"
  | reservedName name => s!"store path name '{String.ofList name}' is not allowed"
  | notInStore path dir =>
    s!"path '{String.ofList path}' is not in the store directory '{String.ofList dir}'"
  | badHashPartLength n => s!"hash part is {n} bytes long, expected {hashPartLength}"
  | relativeStoreDir dir => s!"store directory '{String.ofList dir}' is not an absolute path"

end NixStore
