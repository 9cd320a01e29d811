import NixStore.Text.Utf8

/-!
# The order of texts and of their encodings

Texts are compared by the numbers of their characters, a database compares the bytes of their
encodings. Both orders are the same: the first byte of an encoding grows with the number of bytes,
and encodings of one length compare as the numbers that they spell.
-/

namespace NixStore.Text

/-- Of two characters the lesser one has the lesser encoding, whatever follows. -/
theorem utf8EncodeChar_append_lt {c d : Char} (h : c < d) (xs ys : Bytes) :
    String.utf8EncodeChar c ++ xs < String.utf8EncodeChar d ++ ys := by
  have hlt : c.val.toNat < d.val.toNat := h
  have hd : d.val.toNat < 1114112 := by
    rcases d.valid with h | ⟨-, h⟩
    · exact Nat.lt_trans h (by decide)
    · exact h
  simp only [String.utf8EncodeChar]
  generalize c.val.toNat = m at hlt
  generalize d.val.toNat = n at hlt hd
  by_cases hm : 65535 < m
  · -- four bytes on both sides, too many for one call: the first place where they differ is found
    rw [if_neg (by omega), if_neg (by omega), if_neg (by omega), if_neg (by omega),
      if_neg (by omega), if_neg (by omega)]
    simp only [List.cons_append, List.nil_append, List.cons_lt_cons_iff, UInt8.lt_iff_toNat_lt,
      ← UInt8.toNat_inj, UInt8.toNat_ofNat']
    rcases Nat.lt_or_ge (m / 262144) (n / 262144) with h₁ | h₁
    · omega
    rcases Nat.lt_or_ge (m / 4096) (n / 4096) with h₂ | h₂
    · omega
    rcases Nat.lt_or_ge (m / 64) (n / 64) with h₃ | h₃ <;> omega
  · repeat' split
    all_goals
      simp only [List.cons_append, List.nil_append, List.cons_lt_cons_iff, UInt8.lt_iff_toNat_lt,
        ← UInt8.toNat_inj, UInt8.toNat_ofNat']
      omega

/-- The order of texts is that of their encodings. -/
theorem utf8_lt_utf8 {t u : Text} (h : t < u) : utf8 t < utf8 u := by
  induction t generalizing u with
  | nil =>
    cases u with
    | nil => exact absurd h (List.lt_irrefl [])
    | cons d u =>
      have hne : utf8 (d :: u) ≠ [] := fun hnil ↦
        String.utf8EncodeChar_ne_nil (List.append_eq_nil_iff.1 hnil).1
      obtain ⟨b, bs, hcons⟩ := List.exists_cons_of_ne_nil hne
      rw [hcons]
      exact List.nil_lt_cons b bs
  | cons c t ih =>
    cases u with
    | nil => exact absurd h (List.not_lt_nil _)
    | cons d u =>
      rw [utf8, utf8, List.flatMap_cons, List.flatMap_cons]
      rcases List.cons_lt_cons_iff.1 h with hlt | ⟨rfl, hlt⟩
      · exact utf8EncodeChar_append_lt hlt _ _
      · exact List.append_left_lt (ih hlt)

theorem pairwise_utf8 {ts : List Text} (h : ts.Pairwise (· < ·)) :
    (ts.map utf8).Pairwise (· < ·) :=
  List.pairwise_map.2 (h.imp utf8_lt_utf8)

end NixStore.Text
