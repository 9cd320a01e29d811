import NixStore.Increasing
import NixStore.StorePath.Basic

/-!
# The order of store paths

Paths are ordered by their characters, and so by their bytes. Main statements: the order is
strict and total, it is that of the bytes, and there are finitely many paths, so that a search
which visits each path at most once comes to an end.
-/

namespace NixStore.StorePath

theorem text_injective {p q : StorePath} (h : p.text = q.text) : p = q := by
  have : (Except.ok p : Except StorePathError StorePath) = .ok q := by
    rw [← ofText_text p, ← ofText_text q, h]
  simpa using this

instance : LT StorePath := ⟨fun p q ↦ p.text < q.text⟩

instance : DecidableLT StorePath := fun p q ↦ inferInstanceAs (Decidable (p.text < q.text))

instance : Trans (α := StorePath) (· < ·) (· < ·) (· < ·) := ⟨fun h k ↦ List.lt_trans h k⟩

instance : Std.Irrefl (α := StorePath) (· < ·) := ⟨fun p ↦ List.lt_irrefl p.text⟩

instance : Std.Trichotomous (α := StorePath) (· < ·) :=
  ⟨fun _ _ h k ↦ text_injective (Std.Trichotomous.trichotomous (r := (· < ·)) _ _ h k)⟩

/-! ## Characters and bytes -/

theorem toNat_lt_of_isDigit {c : Char} (h : Base32.isDigit c) : c.toNat < 128 := by
  have key : (Base32.alphabet.all fun c ↦ c.toNat < 128) = true := by decide
  exact of_decide_eq_true (List.all_eq_true.1 key c (Base32.isDigit_iff.1 h))

theorem toNat_lt_of_isNameCharacter {c : Char} (h : isNameCharacter c) : c.toNat < 128 := by
  have key : ((NixStore.text "+-._?=").all fun c ↦ c.toNat < 128) = true := by decide
  simp only [isNameCharacter, Bool.or_eq_true, List.contains_iff_mem] at h
  rcases h with h | h
  · delta Char.isAlphanum Char.isAlpha Char.isUpper Char.isLower Char.isDigit at h
    simp only [Bool.or_eq_true, Bool.and_eq_true, decide_eq_true_eq, UInt32.le_iff_toNat_le] at h
    have h₁ : 'Z'.val.toNat = 90 := rfl
    have h₂ : 'z'.val.toNat = 122 := rfl
    have h₃ : '9'.val.toNat = 57 := rfl
    simp only [Char.toNat]
    omega
  · exact of_decide_eq_true (List.all_eq_true.1 key c h)

theorem toNat_lt_of_mem_text {p : StorePath} {c : Char} (h : c ∈ p.text) : c.toNat < 128 := by
  simp only [text, List.mem_append, List.mem_cons] at h
  rcases h with h | rfl | h
  · exact toNat_lt_of_isDigit (p.hashPart.isDigit_of_mem c h)
  · decide
  · exact toNat_lt_of_isNameCharacter (p.name.isNameCharacter_of_mem c h)

theorem utf8_text (p : StorePath) : Text.utf8 p.text = p.toBytes :=
  Text.utf8_eq_latin1 fun _ h ↦ toNat_lt_of_mem_text h

theorem latin1_lt_latin1 {t u : Text} (ht : ∀ c ∈ t, c.toNat < 128) (hu : ∀ c ∈ u, c.toNat < 128)
    (h : t < u) : Text.latin1 t < Text.latin1 u := by
  induction t generalizing u with
  | nil =>
    cases u with
    | nil => exact absurd h (List.lt_irrefl [])
    | cons d u => exact List.nil_lt_cons _ _
  | cons c t ih =>
    cases u with
    | nil => exact absurd h (List.not_lt_nil _)
    | cons d u =>
      obtain ⟨hc, ht'⟩ := List.forall_mem_cons.1 ht
      obtain ⟨hd, hu'⟩ := List.forall_mem_cons.1 hu
      refine List.cons_lt_cons_iff.2 ?_
      rcases List.cons_lt_cons_iff.1 h with hlt | ⟨rfl, hlt⟩
      · refine .inl (UInt8.lt_iff_toNat_lt.2 ?_)
        have hlt : c.toNat < d.toNat := hlt
        simp only [Nat.toUInt8, UInt8.toNat_ofNat']
        omega
      · exact .inr ⟨rfl, ih ht' hu' hlt⟩

theorem toBytes_lt_toBytes {p q : StorePath} (h : p < q) : p.toBytes < q.toBytes :=
  latin1_lt_latin1 (fun _ h ↦ toNat_lt_of_mem_text h) (fun _ h ↦ toNat_lt_of_mem_text h) h

/-! ## There are finitely many paths -/

/-- The texts of up to `n` characters below 128. -/
def textsUpTo : Nat → List Text
  | 0 => [[]]
  | n + 1 => [] :: (List.range 128).flatMap fun i ↦ (textsUpTo n).map (Char.ofNat i :: ·)

theorem mem_textsUpTo {n : Nat} {t : Text} (hn : t.length ≤ n) (ht : ∀ c ∈ t, c.toNat < 128) :
    t ∈ textsUpTo n := by
  induction n generalizing t with
  | zero => simp [textsUpTo, List.length_eq_zero_iff.1 (Nat.le_zero.1 hn)]
  | succ n ih =>
    cases t with
    | nil => simp [textsUpTo]
    | cons c t =>
      simp only [List.mem_cons, forall_eq_or_imp] at ht
      simp only [textsUpTo, List.mem_cons, List.mem_flatMap, List.mem_map]
      refine .inr ⟨c.toNat, List.mem_range.2 ht.1, t, ih (by simpa using hn) ht.2, ?_⟩
      simp

theorem length_text_le (p : StorePath) : p.text.length ≤ hashPartLength + 1 + maxNameLength := by
  have := p.name.length_le
  simp only [text, List.length_append, List.length_cons, p.hashPart.length_text]
  omega

noncomputable def all : List StorePath :=
  (textsUpTo (hashPartLength + 1 + maxNameLength)).filterMap fun t ↦ (ofText t).toOption

theorem mem_all (p : StorePath) : p ∈ all := by
  refine List.mem_filterMap.2 ⟨p.text, mem_textsUpTo p.length_text_le ?_, ?_⟩
  · exact fun c hc ↦ toNat_lt_of_mem_text hc
  · simp [ofText_text, Except.toOption]

noncomputable def count : Nat := all.length

theorem length_le_count {l : List StorePath} (h : l.Nodup) : l.length ≤ count :=
  h.length_le_of_subset fun p _ ↦ mem_all p

end NixStore.StorePath

namespace NixStore

theorem Increasing.size_le_count (s : Increasing StorePath) : s.size ≤ StorePath.count :=
  StorePath.length_le_count s.nodup

end NixStore
