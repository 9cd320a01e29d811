import NixStore.Proofs.StorePath.Parsing
import Mathlib.Data.List.DropRight

/-!
# Full paths and the directories that print them

A directory is a text without slashes at its end, and may have slashes anywhere else, even several
in a row, so that a full path does not show where its directory ends. What shows it is the store
path: none of its characters is a slash, so the last slash of a full path is the one that was
printed between the two. Hence a full path has one directory only, and no directory above or below
that one reads it.
-/

namespace NixStore

/-! ## Slashes at the end -/

namespace Text

theorem rdropWhile_cons {c : Char} {rest : Text} (h : rest.rdropWhile (· = '/') ≠ []) :
    (c :: rest).rdropWhile (· = '/') = c :: rest.rdropWhile (· = '/') := by
  have hne : (rest.reverse.dropWhile (· = '/')).isEmpty = false := by
    rw [List.isEmpty_eq_false_iff]
    exact mt List.reverse_eq_nil_iff.2 h
  rw [List.rdropWhile, List.reverse_cons, List.dropWhile_append, hne]
  exact List.reverse_append

/-- Something is left behind the first character if that is a slash and another one is not. -/
theorem two_le_length_dropTrailingSlashes_iff {t : Text} (h : t.head? = some '/') :
    2 ≤ (dropTrailingSlashes t).length ↔ ∃ c ∈ t, c ≠ '/' := by
  obtain ⟨rest, rfl⟩ : ∃ rest, t = '/' :: rest := List.head?_eq_some_iff.1 h
  have hlength : 2 ≤ (dropTrailingSlashes ('/' :: rest)).length ↔
      rest.rdropWhile (· = '/') ≠ [] := by
    rw [dropTrailingSlashes, List.length_cons, Nat.succ_le_succ_iff, Nat.succ_le_iff,
      List.length_pos_iff, List.rdropWhile]
  rw [hlength, Ne, List.rdropWhile_eq_nil_iff]
  simp

theorem head?_dropTrailingSlashes (t : Text) : (dropTrailingSlashes t).head? = t.head? := by
  cases t <;> rfl

theorem absolute_dropTrailingSlashes {t : Text} (h : t.head? = some '/')
    (hother : ∃ c ∈ t, c ≠ '/') :
    (dropTrailingSlashes t).head? = some '/' ∧ 2 ≤ (dropTrailingSlashes t).length :=
  ⟨(head?_dropTrailingSlashes t).trans h, (two_le_length_dropTrailingSlashes_iff h).2 hother⟩

/-- The first character is only kept for its own sake if there are slashes and nothing else. -/
theorem dropTrailingSlashes_eq {t : Text} (h : ∃ c ∈ t, c ≠ '/') :
    dropTrailingSlashes t = t.rdropWhile (· = '/') := by
  cases t with
  | nil => rfl
  | cons c rest =>
    by_cases hrest : rest.rdropWhile (· = '/') = []
    · have hslashes : ∀ x ∈ rest, x = '/' := by
        simpa using List.rdropWhile_eq_nil_iff.1 hrest
      obtain ⟨x, hx, hne⟩ := h
      have hc : c ≠ '/' := by
        rcases List.mem_cons.1 hx with rfl | hx
        · exact hne
        · exact absurd (hslashes x hx) hne
      have hdrop : rest.reverse.dropWhile (· = '/') = [] := List.reverse_eq_nil_iff.1 hrest
      rw [dropTrailingSlashes, List.rdropWhile, List.reverse_cons, List.dropWhile_append, hdrop]
      simp [hc]
    · exact (rdropWhile_cons hrest).symm

end Text

/-! ## Directories -/

namespace StoreDir

theorem text_injective {d₁ d₂ : StoreDir} (h : d₁.text = d₂.text) : d₁ = d₂ := by
  cases d₁
  cases d₂
  cases h
  rfl

/-- A directory is what it is read from, without the slashes at the end. -/
theorem ofText_eq_ok_iff {t : Text} {d : StoreDir} : ofText t = .ok d ↔
    t.head? = some '/' ∧ (∃ c ∈ t, c ≠ '/') ∧ d.text = t.rdropWhile (· = '/') := by
  rw [ofText]
  constructor
  · intro hread
    split at hread
    · next h =>
      have habsolute := Text.head?_dropTrailingSlashes t ▸ h.1
      have hother := (Text.two_le_length_dropTrailingSlashes_iff habsolute).1 h.2
      cases hread
      exact ⟨habsolute, hother, Text.dropTrailingSlashes_eq hother⟩
    · cases hread
  · rintro ⟨habsolute, hother, htext⟩
    rw [dif_pos (Text.absolute_dropTrailingSlashes habsolute hother)]
    exact congrArg Except.ok
      (text_injective ((Text.dropTrailingSlashes_eq hother).trans htext.symm))

theorem exists_ofText_iff {t : Text} :
    (∃ d, ofText t = .ok d) ↔ t.head? = some '/' ∧ ∃ c ∈ t, c ≠ '/' := by
  constructor
  · rintro ⟨d, hread⟩
    obtain ⟨habsolute, hother, -⟩ := ofText_eq_ok_iff.1 hread
    exact ⟨habsolute, hother⟩
  · rintro ⟨habsolute, hother⟩
    exact ⟨_, dif_pos (Text.absolute_dropTrailingSlashes habsolute hother)⟩

theorem ofText_text (d : StoreDir) : ofText d.text = .ok d := by
  have hlength : 2 ≤ (Text.dropTrailingSlashes d.text).length := d.normal.symm ▸ d.two_le_length
  have hother := (Text.two_le_length_dropTrailingSlashes_iff d.absolute).1 hlength
  exact ofText_eq_ok_iff.2
    ⟨d.absolute, hother, d.normal.symm.trans (Text.dropTrailingSlashes_eq hother)⟩

/-! ## Full paths -/

theorem slash_not_mem_text (p : StorePath) : '/' ∉ p.text := by
  intro h
  rcases List.mem_append.1 h with hhash | hrest
  · exact absurd (p.hashPart.isDigit_of_mem _ hhash) (by decide)
  · rcases List.mem_cons.1 hrest with hslash | hname
    · exact absurd hslash (by decide)
    · exact absurd (p.name.isNameCharacter_of_mem _ hname) (by decide)

/-- Of two directories that print the same, the text of neither goes beyond the other's, since what
goes beyond has a slash in it and would be part of a store path. -/
theorem print_eq_print_iff {d₁ d₂ : StoreDir} {p₁ p₂ : StorePath} :
    d₁.print p₁ = d₂.print p₂ ↔ d₁ = d₂ ∧ p₁ = p₂ := by
  constructor
  · intro h
    have htext : d₁.text = d₂.text := by
      rcases List.append_eq_append_iff.1 h with
        ⟨_ | ⟨c, beyond⟩, htext, hrest⟩ | ⟨_ | ⟨c, beyond⟩, htext, hrest⟩
      · rw [htext, List.append_nil]
      · have hp : p₁.text = beyond ++ '/' :: p₂.text := (List.cons_eq_cons.1 hrest).2
        exact absurd (hp ▸ List.mem_append_cons_self) (slash_not_mem_text p₁)
      · rw [htext, List.append_nil]
      · have hp : p₂.text = beyond ++ '/' :: p₁.text := (List.cons_eq_cons.1 hrest).2
        exact absurd (hp ▸ List.mem_append_cons_self) (slash_not_mem_text p₂)
    obtain rfl := text_injective htext
    exact ⟨rfl, print_injective h⟩
  · rintro ⟨rfl, rfl⟩
    rfl

/-- **Full paths and store paths correspond one to one.** A text is read as a directory exactly if
it is absolute and has something else than slashes, the directory is the text without the slashes
at its end, and is read back from its own text. A directory reads a full path as a store path
exactly if it prints that store path so. Two directories never print the same full path, and one
never reads what another prints, wherever the one lies from the other. -/
theorem full_paths_one_to_one :
    (∀ t, (∃ d, ofText t = .ok d) ↔ t.head? = some '/' ∧ ∃ c ∈ t, c ≠ '/') ∧
    (∀ t d, ofText t = .ok d → d.text = t.rdropWhile (· = '/') ∧ ofText d.text = .ok d) ∧
    (∀ (d : StoreDir) (p : StorePath) (full : Text), d.parse full = .ok p ↔ full = d.print p) ∧
    (∀ (d₁ d₂ : StoreDir) (p₁ p₂ : StorePath),
      d₁.print p₁ = d₂.print p₂ → d₁ = d₂ ∧ p₁ = p₂) ∧
    (∀ (d₁ d₂ : StoreDir) (p : StorePath), d₁ ≠ d₂ → ∃ e, d₂.parse (d₁.print p) = .error e) := by
  refine ⟨fun t ↦ exists_ofText_iff, fun t d hread ↦ ?_, fun d p full ↦ parse_eq_ok_iff,
    fun d₁ d₂ p₁ p₂ ↦ print_eq_print_iff.1, fun d₁ d₂ p hne ↦ ?_⟩
  · exact ⟨(ofText_eq_ok_iff.1 hread).2.2, ofText_text d⟩
  · cases hread : d₂.parse (d₁.print p) with
    | error e => exact ⟨e, rfl⟩
    | ok q => exact absurd (print_eq_print_iff.1 (parse_eq_ok_iff.1 hread)).1 hne

end StoreDir

end NixStore
