import Mathlib
import NixStore.Digest.Basic
import NixStore.Proofs.Digest.Base32

/-!
# What a recorded hash names

A recorded hash has one of two spellings, which differ in length, and each of them gives the bytes
of the hash back: in base 16 two digits are one byte, and in base 32 the digits are the number that
the bytes hold. So a text names at most one hash. The size of an archive is in neither spelling.
-/

namespace NixStore

namespace Base16

theorem digit?_digit : ∀ {n : Nat}, n < 16 → Text.digit? 16 (digit n) = some n := by
  decide

theorem byte?_halves (b : UInt8) :
    byte? (digit (b.toNat / 16)) (digit (b.toNat % 16)) = some b := by
  have hhigh : b.toNat / 16 < 16 := Nat.div_lt_of_lt_mul b.toNat_lt
  have hlow : b.toNat % 16 < 16 := Nat.mod_lt _ (by decide)
  have hdigits : Text.ofDigits? 16 [digit (b.toNat / 16), digit (b.toNat % 16)] = some b.toNat := by
    simp [Text.ofDigits?, digit?_digit hhigh, digit?_digit hlow, Nat.div_add_mod]
  rw [byte?, hdigits]
  exact congrArg some UInt8.ofNat_toNat

theorem decode?_encode (bs : Bytes) : decode? (encode bs) = some bs := by
  induction bs with
  | nil => rfl
  | cons b bs ih =>
    change (byte? _ _).bind
      (fun byte ↦ (decode? (encode bs)).bind fun rest ↦ some (byte :: rest)) = _
    rw [byte?_halves, ih]
    rfl

theorem encode_injective {bs cs : Bytes} (h : encode bs = encode cs) : bs = cs := by
  refine Option.some.inj ?_
  rw [← decode?_encode, ← decode?_encode, h]

theorem toLower_of_mem_encode {bs : Bytes} {c : Char} (h : c ∈ encode bs) : c.toLower = c := by
  have hdigit : ∀ n < 16, (digit n).toLower = digit n := by decide
  obtain ⟨b, -, hc⟩ := List.mem_flatMap.1 h
  rcases List.mem_cons.1 hc with rfl | hc
  · exact hdigit _ (Nat.div_lt_of_lt_mul b.toNat_lt)
  · rw [List.mem_singleton.1 hc]
    exact hdigit _ (Nat.mod_lt _ (by decide))

end Base16

namespace Text

/-- A text is another one with some of its letters written in upper case. -/
def CaseVariant (t lower : Text) : Prop := List.Forall₂ (fun c l ↦ c = l ∨ c = l.toUpper) t lower

theorem CaseVariant.refl (t : Text) : CaseVariant t t := List.forall₂_same.2 fun _ _ ↦ .inl rfl

/-- The characters that are a given one in lower case are that one and its upper case. -/
theorem toLower_eq_iff {c l : Char} (hl : l.toLower = l) :
    c.toLower = l ↔ c = l ∨ c = l.toUpper := by
  constructor
  · rintro rfl
    by_cases hc : c.isUpper
    · right
      rw [Char.toUpper_toLower_eq_toUpper,
        Char.toUpper_eq_of_not_isLower (Char.not_isLower_of_isUpper hc)]
    · exact .inl (Char.toLower_eq_of_not_isUpper hc).symm
  · rintro (rfl | rfl)
    · exact hl
    · rw [Char.toLower_toUpper_eq_toLower, hl]

theorem map_toLower_eq_iff {t lower : Text} (h : ∀ l ∈ lower, l.toLower = l) :
    t.map Char.toLower = lower ↔ CaseVariant t lower := by
  induction lower generalizing t with
  | nil => simp [CaseVariant]
  | cons l lower ih =>
    obtain ⟨hl, hlower⟩ := List.forall_mem_cons.1 h
    cases t with
    | nil => simp [CaseVariant]
    | cons c t =>
      rw [List.map_cons, List.cons.injEq, toLower_eq_iff hl, ih hlower, CaseVariant, CaseVariant,
        List.forall₂_cons]

end Text

namespace ArchiveDigest

variable {d e : ArchiveDigest}

theorem length_base16 (d : ArchiveDigest) : d.base16.length = 64 := by
  rw [base16, Base16.length_encode, d.length_hash]

theorem length_base32 (d : ArchiveDigest) : d.base32.length = 52 := by
  rw [base32, Base32.length_encode, d.length_hash]
  rfl

/-- Digits spell a hash in base 16, in any letter case, or in base 32 exactly. -/
def SpelledBy (d : ArchiveDigest) (digits : Text) : Prop :=
  Text.CaseVariant digits d.base16 ∨ digits = d.base32

theorem caseVariant_base16_iff {digits : Text} :
    Text.CaseVariant digits d.base16 ↔ digits.map Char.toLower = d.base16 :=
  (Text.map_toLower_eq_iff fun _ ↦ Base16.toLower_of_mem_encode).symm

theorem SpelledBy.unique {digits : Text} (hd : d.SpelledBy digits) (he : e.SpelledBy digits) :
    d.hash = e.hash := by
  have hdisjoint : ∀ {d e : ArchiveDigest}, ¬Text.CaseVariant d.base32 e.base16 := fun h ↦ by
    have hlength := h.length_eq
    rw [length_base32, length_base16] at hlength
    cases hlength
  rcases hd with hd | rfl <;> rcases he with he | he
  · rw [caseVariant_base16_iff] at hd he
    exact Base16.encode_injective (hd.symm.trans he)
  · exact absurd (he ▸ hd) hdisjoint
  · exact absurd he hdisjoint
  · exact Base32.encode_injective (d.length_hash.trans e.length_hash.symm) he

theorem isNamedBy_iff {recorded : Text} :
    d.isNamedBy recorded ↔ ∃ digits, recorded = scheme ++ digits ∧ d.SpelledBy digits := by
  simp only [SpelledBy, caseVariant_base16_iff]
  rw [isNamedBy]
  cases hafter : Text.after? scheme recorded with
  | none =>
    have hnot : ∀ digits, recorded ≠ scheme ++ digits := fun digits hdigits ↦ by
      rw [Text.after?_eq_some_iff.2 hdigits] at hafter
      cases hafter
    simp [hnot]
  | some digits =>
    obtain rfl := Text.after?_eq_some_iff.1 hafter
    simp only [List.append_cancel_left_eq, exists_eq_left']
    -- a spelling has the length for which it is compared
    have h16 : digits.map Char.toLower = d.base16 → digits.length = 64 := fun h ↦ by
      rw [← length_base16 d, ← h, List.length_map]
    have h32 : digits = d.base32 → digits.length = 52 := fun h ↦ by rw [h, length_base32]
    by_cases h64 : digits.length = 64
    · have hne : digits ≠ d.base32 := fun h ↦ by simp [h32 h] at h64
      simp [h64, hne]
    · have hne : digits.map Char.toLower ≠ d.base16 := fun h ↦ h64 (h16 h)
      by_cases h52 : digits.length = 52
      · simp [h52, hne]
      · have hne' : digits ≠ d.base32 := fun h ↦ h52 (h32 h)
        simp [h64, h52, hne, hne']

/-- **A recorded hash names at most one hash.** It names a digest if and only if it spells its hash
behind the scheme: by its sixty-four digits in base 16, in any letter case, or by its fifty-two
digits in base 32 exactly. So a digest is named by what it renders and by its digits in base 16,
whatever its size, and two digests that are named by one text have the same hash. -/
theorem recorded_names_one_hash (d : ArchiveDigest) (recorded : Text) :
    (d.isNamedBy recorded ↔
      ∃ digits, recorded = scheme ++ digits ∧
        (Text.CaseVariant digits d.base16 ∨ digits = d.base32)) ∧
    (d.base16.length = 64 ∧ d.base32.length = 52) ∧
    (d.isNamedBy d.render ∧ d.isNamedBy (scheme ++ d.base16)) ∧
    (∀ e : ArchiveDigest, d.hash = e.hash → d.isNamedBy recorded = e.isNamedBy recorded) ∧
    ∀ e : ArchiveDigest, d.isNamedBy recorded → e.isNamedBy recorded → d.hash = e.hash := by
  refine ⟨isNamedBy_iff, ⟨length_base16 d, length_base32 d⟩, ⟨?_, ?_⟩, fun e he ↦ ?_, ?_⟩
  · exact isNamedBy_iff.2 ⟨d.base32, rfl, .inr rfl⟩
  · exact isNamedBy_iff.2 ⟨d.base16, rfl, .inl (.refl _)⟩
  · rw [isNamedBy, isNamedBy, base16, base16, base32, base32, he]
  · intro e hd he
    obtain ⟨digits, rfl, hspelled⟩ := isNamedBy_iff.1 hd
    obtain ⟨digits', hsame, hspelled'⟩ := isNamedBy_iff.1 he
    exact hspelled.unique (List.append_cancel_left hsame ▸ hspelled')

end ArchiveDigest

end NixStore
