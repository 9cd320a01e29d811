import NixStore.Text.Blank

/-!
# The words of a text

The words of a text are its longest stretches without a blank, in their order. The function that
splits a text carries the letters read since the last blank; here the words are told by the text
alone. Words that are joined by single blanks come back as they were.
-/

namespace NixStore.Text

/-- The words of a text, with the blanks between them left out. -/
inductive Splits : Text → List Text → Prop where
  | nil : Splits [] []
  | blank {c : Char} {rest : Text} {ws : List Text} (hc : isBlank c) (h : Splits rest ws) :
    Splits (c :: rest) ws
  /-- A word ends at a blank or with the text. -/
  | word {w rest : Text} {ws : List Text} (hne : w ≠ []) (hw : ∀ c ∈ w, ¬isBlank c)
    (hend : ∀ c ∈ rest.head?, isBlank c) (h : Splits rest ws) : Splits (w ++ rest) (w :: ws)

theorem wordsFrom_append {word w rest : Text} (hw : ∀ c ∈ w, ¬isBlank c) :
    wordsFrom word (w ++ rest) = wordsFrom (w.reverse ++ word) rest := by
  induction w generalizing word with
  | nil => rfl
  | cons c w ih =>
    obtain ⟨hc, hw⟩ := List.forall_mem_cons.1 hw
    rw [List.cons_append, wordsFrom, if_neg hc, ih hw, List.reverse_cons, List.append_assoc]
    rfl

theorem words_cons_of_isBlank {c : Char} (hc : isBlank c) (rest : Text) :
    words (c :: rest) = words rest := by
  rw [words, wordsFrom, if_pos hc]
  rfl

theorem words_append {w rest : Text} (hne : w ≠ []) (hw : ∀ c ∈ w, ¬isBlank c)
    (hend : ∀ c ∈ rest.head?, isBlank c) : words (w ++ rest) = w :: words rest := by
  have hcarried : ¬w.reverse.isEmpty := by simpa using hne
  rw [words, wordsFrom_append hw, List.append_nil]
  cases rest with
  | nil =>
    rw [wordsFrom, if_neg hcarried, List.reverse_reverse]
    rfl
  | cons c rest =>
    have hc : isBlank c := hend c rfl
    rw [wordsFrom, if_pos hc, if_neg hcarried, List.reverse_reverse, words_cons_of_isBlank hc,
      words]

theorem words_eq_of_splits {t : Text} {ws : List Text} (h : Splits t ws) : words t = ws := by
  induction h with
  | nil => rfl
  | blank hc _ ih => rw [words_cons_of_isBlank hc, ih]
  | word hne hw hend _ ih => rw [words_append hne hw hend, ih]

theorem splits_wordsFrom {word : Text} (hword : ∀ c ∈ word, ¬isBlank c) (t : Text) :
    Splits (word.reverse ++ t) (wordsFrom word t) := by
  have hreverse : ∀ {word : Text}, (∀ c ∈ word, ¬isBlank c) → ∀ c ∈ word.reverse, ¬isBlank c :=
    fun hword c hc ↦ hword c (List.mem_reverse.1 hc)
  induction t generalizing word with
  | nil =>
    rw [wordsFrom]
    split
    · next h =>
      rw [List.isEmpty_iff.1 h]
      exact .nil
    · next h => exact .word (by simpa using h) (hreverse hword) nofun .nil
  | cons c t ih =>
    rw [wordsFrom]
    by_cases hc : isBlank c
    · rw [if_pos hc]
      have hrest : Splits (c :: t) (wordsFrom [] t) := .blank hc (ih (List.forall_mem_nil _))
      split
      · next h =>
        rw [List.isEmpty_iff.1 h]
        exact hrest
      · next h =>
        refine .word (by simpa using h) (hreverse hword) (fun d hd ↦ ?_) hrest
        rwa [← Option.some.inj hd]
    · rw [if_neg hc]
      have hrest := ih (List.forall_mem_cons.2 ⟨hc, hword⟩)
      rwa [List.reverse_cons, List.append_assoc] at hrest

theorem splits_words (t : Text) : Splits t (words t) :=
  splits_wordsFrom (List.forall_mem_nil _) t

theorem splits_intercalate {ws : List Text} (h : ∀ w ∈ ws, w ≠ [] ∧ ∀ c ∈ w, ¬isBlank c) :
    Splits ([' '].intercalate ws) ws := by
  have hblank : isBlank ' ' := by decide
  induction ws with
  | nil => exact .nil
  | cons w ws ih =>
    obtain ⟨⟨hne, hw⟩, hws⟩ := List.forall_mem_cons.1 h
    cases ws with
    | nil =>
      have hlast : Splits (w ++ []) [w] := .word hne hw nofun .nil
      rw [List.append_nil] at hlast
      simpa only [List.intercalate_singleton] using hlast
    | cons w' ws =>
      have hrest : Splits (' ' :: [' '].intercalate (w' :: ws)) (w' :: ws) := .blank hblank (ih hws)
      rw [List.intercalate_cons_cons, List.append_assoc]
      exact .word hne hw (fun d hd ↦ Option.some.inj hd ▸ hblank) hrest

end NixStore.Text
