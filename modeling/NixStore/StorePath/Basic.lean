import NixStore.Digest.Base32
import NixStore.StorePath.Error
import NixStore.Text.Utf8

/-!
# Store paths

A store path is the name of one entry of the store directory: a hash part of thirty-two base 32
digits, a hyphen, and a name of 1 to 211 characters. A value of the type carries the proofs of
these rules, so every value is well formed and only the parser can refuse. All characters are
ASCII, and a path's bytes are its characters' numbers; the parser reads any bytes, taking each as
one character, so that positions in its errors are byte positions.
-/

namespace NixStore

namespace Text

/-- The first character that fails a test, with its position; `offset` is the position of the
first character. -/
def firstFailing (ok : Char → Bool) (offset : Nat) : Text → Option (Nat × Char)
  | [] => none
  | c :: rest => if ok c then firstFailing ok (offset + 1) rest else some (offset, c)

theorem firstFailing_eq_none_iff {ok : Char → Bool} {offset : Nat} {t : Text} :
    firstFailing ok offset t = none ↔ ∀ c ∈ t, ok c := by
  induction t generalizing offset with
  | nil => simp [firstFailing]
  | cons c rest ih => by_cases h : ok c <;> simp [firstFailing, h, ih]

end Text

/-! ## Hash parts -/

/-- Thirty-two base 32 digits. -/
structure HashPart where
  text : Text
  length_text : text.length = hashPartLength
  isDigit_of_mem : ∀ c ∈ text, Base32.isDigit c
deriving DecidableEq

namespace HashPart

def ofDigits (t : Text) (h : t.length = hashPartLength) : Except StorePathError HashPart :=
  match hd : Text.firstFailing Base32.isDigit 0 t with
  | some (i, c) => .error (.badDigit i c)
  | none => .ok ⟨t, h, Text.firstFailing_eq_none_iff.1 hd⟩

def ofBytes (bs : Bytes) : Except StorePathError HashPart :=
  if h : bs.length = hashPartLength then
    ofDigits (Text.ofLatin1 bs) (by simpa [Text.ofLatin1] using h)
  else .error (.badHashPartLength bs.length)

theorem ofDigits_text (h : HashPart) : ofDigits h.text h.length_text = .ok h := by
  unfold ofDigits
  split
  · next i c hd =>
    have : Text.firstFailing Base32.isDigit 0 h.text = none :=
      Text.firstFailing_eq_none_iff.2 h.isDigit_of_mem
    simp [this] at hd
  · rfl

end HashPart

/-! ## Names -/

def isNameCharacter (c : Char) : Bool := c.isAlphanum || (text "+-._?=").contains c

/-- Names that would read as a directory reference, alone or before a hyphen. -/
def isReservedName (t : Text) : Bool :=
  t = text "." || t = text ".." || (text ".-").isPrefixOf t || (text "..-").isPrefixOf t

/-- What follows the hash part and the hyphen. -/
structure PathName where
  text : Text
  ne_nil : text ≠ []
  length_le : text.length ≤ maxNameLength
  isNameCharacter_of_mem : ∀ c ∈ text, isNameCharacter c
  not_reserved : isReservedName text = false
deriving DecidableEq

namespace PathName

/-- Reads a text that is not empty; `offset` is the position of its first character. -/
def ofText (offset : Nat) (t : Text) (h : t ≠ []) : Except StorePathError PathName :=
  if hl : t.length ≤ maxNameLength then
    match hc : Text.firstFailing isNameCharacter offset t with
    | some (i, c) => .error (.badNameCharacter i c)
    | none =>
      if hr : isReservedName t = false then
        .ok ⟨t, h, hl, Text.firstFailing_eq_none_iff.1 hc, hr⟩
      else .error (.reservedName t)
  else .error (.nameTooLong t.length)

theorem ofText_text (offset : Nat) (n : PathName) : ofText offset n.text n.ne_nil = .ok n := by
  unfold ofText
  rw [dif_pos n.length_le]
  split
  · next i c hc =>
    have : Text.firstFailing isNameCharacter offset n.text = none :=
      Text.firstFailing_eq_none_iff.2 n.isNameCharacter_of_mem
    simp [this] at hc
  · rw [dif_pos n.not_reserved]

end PathName

/-! ## Whole paths -/

/-- A hash part and a name. -/
structure StorePath where
  hashPart : HashPart
  name : PathName
deriving DecidableEq

instance : Inhabited HashPart :=
  ⟨⟨List.replicate hashPartLength '0', rfl, List.all_eq_true.1 rfl⟩⟩

instance : Inhabited PathName := ⟨⟨['x'], by decide, by decide, List.all_eq_true.1 rfl, rfl⟩⟩

instance : Inhabited StorePath := ⟨⟨default, default⟩⟩

namespace StorePath

def text (p : StorePath) : Text := p.hashPart.text ++ '-' :: p.name.text

def toBytes (p : StorePath) : Bytes := Text.latin1 p.text

def toString (p : StorePath) : String := String.ofList p.text

instance : ToString StorePath := ⟨toString⟩

def isDerivation (p : StorePath) : Bool := (NixStore.text ".drv").isSuffixOf p.name.text

/-- Reads characters below 256, one for each byte. Of two broken rules, the one about the length
is reported first, then the one about what stands further to the left; of a name, its length is
looked at before its characters, and these before the name as a whole. -/
def ofText (t : Text) : Except StorePathError StorePath :=
  match h : t.drop hashPartLength with
  | separator :: c :: rest => do
    let hashPart ← HashPart.ofDigits (t.take hashPartLength) (by
      have := congrArg List.length h
      simp only [List.length_drop, List.length_cons] at this
      simp only [List.length_take]
      omega)
    -- the digits before it are looked at first, the name after it last
    if separator ≠ '-' then throw (.missingSeparator separator)
    let name ← PathName.ofText (hashPartLength + 1) (c :: rest) (List.cons_ne_nil c rest)
    return ⟨hashPart, name⟩
  | _ => .error (.tooShort t.length)

theorem ofText_text (p : StorePath) : ofText p.text = .ok p := by
  obtain ⟨hashPart, name⟩ := p
  have hdrop : (text ⟨hashPart, name⟩).drop hashPartLength = '-' :: name.text := by
    simp [text, ← hashPart.length_text]
  have htake : (text ⟨hashPart, name⟩).take hashPartLength = hashPart.text := by
    simp [text, ← hashPart.length_text]
  unfold ofText
  split
  · next separator c rest h =>
    rw [hdrop] at h
    obtain ⟨rfl, hname⟩ : '-' = separator ∧ name.text = c :: rest := by simpa using h
    have h₁ : ∀ h', HashPart.ofDigits ((text ⟨hashPart, name⟩).take hashPartLength) h' =
        .ok hashPart := by
      rw [htake]
      intro _
      exact hashPart.ofDigits_text
    have h₂ : ∀ h', PathName.ofText (hashPartLength + 1) (c :: rest) h' = .ok name := by
      rw [← hname]
      intro _
      exact name.ofText_text _
    simp [h₁, h₂, bind, Except.bind, pure, Except.pure]
  · next h =>
    exfalso
    obtain ⟨c, rest, hname⟩ := List.exists_cons_of_ne_nil name.ne_nil
    exact h '-' c rest (by rw [hdrop, hname])

/-- Reads the bytes of a path; nothing is trimmed or cut off. -/
def ofBytes (bs : Bytes) : Except StorePathError StorePath := ofText (Text.ofLatin1 bs)

/-- Reads the characters of a path; a character outside ASCII counts as the bytes of its
encoding. -/
def ofUtf8 (t : Text) : Except StorePathError StorePath := ofBytes (Text.utf8 t)

end StorePath

end NixStore
