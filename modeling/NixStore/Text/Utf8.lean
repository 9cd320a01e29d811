import NixStore.Text.Basic

/-!
# UTF-8

One step of the decoder looks at the first bytes of a string and either takes a whole character or
sets aside an ill-formed stretch: the longest start of some character's encoding, or a single byte
where no encoding starts. A text is well formed when no step sets anything aside; shown to a
reader, each ill-formed stretch becomes one replacement character.
-/

namespace NixStore.Text

def utf8 (t : Text) : Bytes := t.flatMap String.utf8EncodeChar

theorem utf8_eq_latin1 {t : Text} (h : ∀ c ∈ t, c.toNat < 128) : utf8 t = latin1 t := by
  induction t with
  | nil => rfl
  | cons c rest ih =>
    obtain ⟨hc, hrest⟩ := List.forall_mem_cons.1 h
    have hone : String.utf8EncodeChar c = [c.toNat.toUInt8] := if_pos (Nat.le_of_lt_succ hc)
    rw [utf8, List.flatMap_cons, hone, ← utf8, ih hrest]
    rfl

/-- Bytes that continue a character. -/
def isTail (b : UInt8) : Bool := 0x80 ≤ b && b ≤ 0xBF

/-- The bytes that may follow the first byte of a three-byte character. -/
def isSecondOfThree (a b : UInt8) : Bool :=
  if a = 0xE0 then 0xA0 ≤ b && b ≤ 0xBF
  else if a = 0xED then 0x80 ≤ b && b ≤ 0x9F
  else isTail b

/-- The bytes that may follow the first byte of a four-byte character. -/
def isSecondOfFour (a b : UInt8) : Bool :=
  if a = 0xF0 then 0x90 ≤ b && b ≤ 0xBF
  else if a = 0xF4 then 0x80 ≤ b && b ≤ 0x8F
  else isTail b

/-- The payload of a continuation byte. -/
def tailBits (b : UInt8) : Nat := b.toNat % 64

/-- Two continuation bytes after the first byte of a three-byte character. -/
private def threeBytes (a : UInt8) (rest : Bytes) : Option Char × Bytes :=
  match rest with
  | b :: rest' =>
    if isSecondOfThree a b then
      match rest' with
      | c :: rest'' =>
        if isTail c then
          (some (Char.ofNat ((a.toNat % 16) * 4096 + tailBits b * 64 + tailBits c)), rest'')
        else (none, rest')
      | [] => (none, [])
    -- the second byte starts something else
    else (none, rest)
  | [] => (none, [])

/-- Three continuation bytes after the first byte of a four-byte character. -/
private def fourBytes (a : UInt8) (rest : Bytes) : Option Char × Bytes :=
  match rest with
  | b :: rest' =>
    if isSecondOfFour a b then
      match rest' with
      | c :: rest'' =>
        if isTail c then
          match rest'' with
          | d :: rest''' =>
            if isTail d then
              (some (Char.ofNat
                ((a.toNat % 8) * 262144 + tailBits b * 4096 + tailBits c * 64 + tailBits d)),
                rest''')
            else (none, rest'')
          | [] => (none, [])
        else (none, rest')
      | [] => (none, [])
    else (none, rest)
  | [] => (none, [])

/-- Takes one character, or one ill-formed stretch (`none`), from a string that starts with the
byte `a`; also what is left after it. -/
def decodeStep (a : UInt8) (rest : Bytes) : Option Char × Bytes :=
  if a < 0x80 then (some (Char.ofNat a.toNat), rest)
  else if 0xC2 ≤ a && a ≤ 0xDF then
    match rest with
    | b :: rest' =>
      if isTail b then (some (Char.ofNat ((a.toNat % 32) * 64 + tailBits b)), rest')
      else (none, rest)
    | [] => (none, [])
  else if 0xE0 ≤ a && a ≤ 0xEF then threeBytes a rest
  else if 0xF0 ≤ a && a ≤ 0xF4 then fourBytes a rest
  else (none, rest)

private theorem length_threeBytes (a : UInt8) (rest : Bytes) :
    (threeBytes a rest).2.length ≤ rest.length := by
  unfold threeBytes
  repeat' split
  all_goals simp_all <;> omega

private theorem length_fourBytes (a : UInt8) (rest : Bytes) :
    (fourBytes a rest).2.length ≤ rest.length := by
  unfold fourBytes
  repeat' split
  all_goals simp_all <;> omega

theorem length_decodeStep (a : UInt8) (rest : Bytes) :
    (decodeStep a rest).2.length ≤ rest.length := by
  unfold decodeStep
  split
  · simp
  split
  · split
    · split <;> simp
    · simp
  split
  · exact length_threeBytes a rest
  split
  · exact length_fourBytes a rest
  · simp

/-- The steps of the decoder over a whole string. -/
def decodeSteps : Bytes → List (Option Char)
  | [] => []
  | a :: rest => (decodeStep a rest).1 :: decodeSteps (decodeStep a rest).2
termination_by bs => bs.length
decreasing_by
  have := length_decodeStep a rest
  simp only [List.length_cons]
  omega

/-- Each character, or `none` if there is an ill-formed stretch. -/
def allSome : List (Option Char) → Option Text
  | [] => some []
  | none :: _ => none
  | some c :: rest => (allSome rest).map (c :: ·)

def ofUtf8? (bs : Bytes) : Option Text := allSome (decodeSteps bs)

/-- The text shown for any string: each ill-formed stretch is one replacement character. -/
def ofUtf8Lossy (bs : Bytes) : Text := (decodeSteps bs).map (·.getD '\ufffd')

def display (bs : Bytes) : String := String.ofList (ofUtf8Lossy bs)

end NixStore.Text
