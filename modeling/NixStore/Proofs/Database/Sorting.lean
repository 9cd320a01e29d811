import NixStore.Database.Tables

/-!
# Texts in order

The order in which the tables give their answers. A sorted list is told by how often each
text is in it; without repetition it is strictly increasing.
-/

namespace NixStore

theorem mayPrecede_iff {a b : Text} : mayPrecede a b ↔ ¬b < a := by
  simp [mayPrecede]

theorem mayPrecede_of_lt {a b : Text} (h : a < b) : mayPrecede a b :=
  mayPrecede_iff.2 (Std.Asymm.asymm _ _ h)

theorem mayPrecede_trans (a b c : Text) (h : mayPrecede a b) (h' : mayPrecede b c) :
    mayPrecede a c :=
  mayPrecede_iff.2 (List.le_trans (mayPrecede_iff.1 h) (mayPrecede_iff.1 h'))

theorem mayPrecede_total (a b : Text) : mayPrecede a b || mayPrecede b a := by
  rw [Bool.or_eq_true, mayPrecede_iff, mayPrecede_iff]
  by_cases h : b < a
  · exact .inr (Std.Asymm.asymm _ _ h)
  · exact .inl h

theorem mayPrecede_refl (a : Text) : mayPrecede a a := mayPrecede_iff.2 (Std.Irrefl.irrefl a)

theorem eq_of_mayPrecede {a b : Text} (h : mayPrecede a b) (h' : mayPrecede b a) : a = b :=
  Std.Trichotomous.trichotomous (r := (· < ·)) _ _ (mayPrecede_iff.1 h') (mayPrecede_iff.1 h)

theorem lt_of_mayPrecede {a b : Text} (h : mayPrecede a b) (hne : a ≠ b) : a < b :=
  Decidable.byContradiction fun hab ↦ hne (eq_of_mayPrecede h (mayPrecede_iff.2 hab))

/-! ## Sorting -/

theorem pairwise_sortTexts (ts : List Text) :
    (sortTexts ts).Pairwise (fun a b ↦ mayPrecede a b) := by
  rw [sortTexts]
  exact List.pairwise_mergeSort mayPrecede_trans mayPrecede_total ts

theorem pairwise_lt_sortTexts {ts : List Text} (h : ts.Nodup) :
    (sortTexts ts).Pairwise (· < ·) := by
  have hnodup : (sortTexts ts).Nodup := (List.mergeSort_perm ts mayPrecede).nodup_iff.2 h
  exact ((pairwise_sortTexts ts).and hnodup).imp fun hab ↦ lt_of_mayPrecede hab.1 hab.2

theorem sortTexts_of_pairwise {ts : List Text} (h : ts.Pairwise (· < ·)) : sortTexts ts = ts :=
  List.mergeSort_of_pairwise (h.imp mayPrecede_of_lt)

theorem sortTexts_eq_of_perm {ts us : List Text} (h : ts.Perm us) :
    sortTexts ts = sortTexts us := by
  have hperm : (sortTexts ts).Perm (sortTexts us) :=
    (List.mergeSort_perm ts _).trans (h.trans (List.mergeSort_perm us _).symm)
  exact hperm.eq_of_pairwise (fun a b _ _ ↦ eq_of_mayPrecede) (pairwise_sortTexts ts)
    (pairwise_sortTexts us)

/-! ## The least path -/

theorem Tables.exists_least (rows : List PathRow) :
    (rows = [] ∧ rows.foldr (fun r u ↦ some (least? r.path u)) none = none) ∨
      ∃ row ∈ rows, rows.foldr (fun r u ↦ some (least? r.path u)) none = some row.path ∧
        ∀ row' ∈ rows, mayPrecede row.path row'.path := by
  induction rows with
  | nil => exact .inl ⟨rfl, rfl⟩
  | cons row rows ih =>
    rw [List.foldr_cons]
    rcases ih with ⟨rfl, hnone⟩ | ⟨least, hleast, hfold, hall⟩
    · refine .inr ⟨row, List.mem_cons_self, rfl, fun row' hrow' ↦ ?_⟩
      rw [List.mem_singleton.1 hrow']
      exact mayPrecede_refl _
    · rw [hfold, least?]
      by_cases hless : row.path < least.path
      · rw [if_pos hless]
        refine .inr ⟨row, List.mem_cons_self, rfl, List.forall_mem_cons.2 ⟨mayPrecede_refl _, ?_⟩⟩
        exact fun row' hrow' ↦ mayPrecede_trans _ _ _ (mayPrecede_of_lt hless) (hall row' hrow')
      · rw [if_neg hless]
        exact .inr ⟨least, List.mem_cons_of_mem _ hleast, rfl,
          List.forall_mem_cons.2 ⟨mayPrecede_iff.2 hless, hall⟩⟩

end NixStore
