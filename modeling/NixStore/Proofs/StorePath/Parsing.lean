import NixStore.StorePath.Directory
import NixStore.StorePath.Order

/-!
# What the parsers of paths accept

A parser gives a path for exactly the text of that path: what it reads is kept as it is, and a path
is read back from its own text. The same holds of the bytes of a path, since all its characters are
ASCII, and of full paths, of which a store directory reads those that it prints.
-/

namespace NixStore

namespace Text

theorem utf8_injective {t u : Text} (h : utf8 t = utf8 u) : t = u := by
  refine String.ofList_injective (String.toByteArray_inj.1 ?_)
  rw [String.toByteArray_ofList, String.toByteArray_ofList]
  exact congrArg List.toByteArray h

theorem latin1_ofLatin1 (bs : Bytes) : latin1 (ofLatin1 bs) = bs := by
  rw [latin1, ofLatin1, List.map_map]
  refine (List.map_congr_left fun b _ ↦ ?_).trans (List.map_id bs)
  have hvalid : b.toNat.isValidChar := .inl (Nat.lt_trans b.toNat_lt (by decide))
  rw [Function.comp, Char.toNat, Char.ofNat, dif_pos hvalid]
  exact UInt8.ofNat_toNat

theorem ofLatin1_latin1 {t : Text} (h : ∀ c ∈ t, c.toNat < 128) : ofLatin1 (latin1 t) = t := by
  rw [latin1, ofLatin1, List.map_map]
  refine (List.map_congr_left fun c hc ↦ ?_).trans (List.map_id t)
  have hlt : c.toNat < 256 := Nat.lt_trans (h c hc) (by decide)
  rw [Function.comp, Nat.toUInt8, UInt8.toNat_ofNat', Nat.mod_eq_of_lt hlt]
  exact Char.ofNat_toNat c

end Text

theorem HashPart.text_of_ofDigits {t : Text} {ht : t.length = hashPartLength} {h : HashPart}
    (hread : ofDigits t ht = .ok h) : h.text = t := by
  rw [ofDigits] at hread
  split at hread
  · cases hread
  · cases hread
    rfl

theorem HashPart.ofBytes_eq_ok_iff {bs : Bytes} {h : HashPart} :
    ofBytes bs = .ok h ↔ bs = Text.latin1 h.text := by
  rw [ofBytes]
  constructor
  · intro hread
    split at hread
    · rw [text_of_ofDigits hread, Text.latin1_ofLatin1]
    · cases hread
  · rintro rfl
    have htext : Text.ofLatin1 (Text.latin1 h.text) = h.text :=
      Text.ofLatin1_latin1 fun c hc ↦ StorePath.toNat_lt_of_isDigit (h.isDigit_of_mem c hc)
    rw [dif_pos (by rw [Text.latin1, List.length_map, h.length_text])]
    simp only [htext, ofDigits_text]

theorem PathName.text_of_ofText {offset : Nat} {t : Text} {ht : t ≠ []} {n : PathName}
    (hread : ofText offset t ht = .ok n) : n.text = t := by
  rw [ofText] at hread
  split at hread
  · split at hread
    · cases hread
    · split at hread
      · cases hread
        rfl
      · cases hread
  · cases hread

namespace StorePath

theorem text_of_ofText {t : Text} {p : StorePath} (hread : ofText t = .ok p) : p.text = t := by
  rw [ofText] at hread
  split at hread
  · next separator c rest hdrop =>
    simp only [bind, Except.bind] at hread
    split at hread
    · cases hread
    · next hashPart hhash =>
      split at hread
      · cases hread
      · next hseparator =>
        split at hread
        · cases hread
        · next name hname =>
          cases hread
          rw [text, HashPart.text_of_ofDigits hhash, PathName.text_of_ofText hname,
            ← Decidable.not_not.1 hseparator, ← hdrop, List.take_append_drop]
  · cases hread

theorem ofText_eq_ok_iff {t : Text} {p : StorePath} : ofText t = .ok p ↔ t = p.text :=
  ⟨fun h ↦ (text_of_ofText h).symm, fun h ↦ h ▸ ofText_text p⟩

theorem ofBytes_eq_ok_iff {bs : Bytes} {p : StorePath} : ofBytes bs = .ok p ↔ bs = p.toBytes := by
  rw [ofBytes, ofText_eq_ok_iff]
  constructor
  · intro h
    rw [toBytes, ← h, Text.latin1_ofLatin1]
  · rintro rfl
    exact Text.ofLatin1_latin1 fun _ h ↦ toNat_lt_of_mem_text h

theorem ofUtf8_eq_ok_iff {t : Text} {p : StorePath} : ofUtf8 t = .ok p ↔ t = p.text := by
  rw [ofUtf8, ofBytes_eq_ok_iff, ← utf8_text]
  exact ⟨Text.utf8_injective, congrArg Text.utf8⟩

end StorePath

namespace StoreDir

/-- A directory reads the full paths that it prints, and no others. -/
theorem parse_eq_ok_iff {d : StoreDir} {full : Text} {p : StorePath} :
    d.parse full = .ok p ↔ full = d.print p := by
  have hprint : d.print p = d.text ++ ['/'] ++ p.text := List.append_cons ..
  rw [parse, hprint]
  cases hrest : Text.after? (d.text ++ ['/']) full with
  | none =>
    refine ⟨(nomatch ·), fun h ↦ ?_⟩
    rw [Text.after?_eq_some_iff.2 h] at hrest
    cases hrest
  | some rest =>
    rw [Text.after?_eq_some_iff.1 hrest, List.append_cancel_left_eq, ← StorePath.ofUtf8_eq_ok_iff]

theorem parse_print (d : StoreDir) (p : StorePath) : d.parse (d.print p) = .ok p :=
  parse_eq_ok_iff.2 rfl

theorem print_injective {d : StoreDir} {p q : StorePath} (h : d.print p = d.print q) : p = q :=
  Except.ok.inj ((d.parse_print p).symm.trans (parse_eq_ok_iff.2 h))

end StoreDir

end NixStore
