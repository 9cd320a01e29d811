import NixStore.Text.Basic

/-!
# Finite sets as increasing lists

A finite set of elements of a strict order is kept as the list of its elements in increasing
order, without repetition. There is one such list for each set, so the order in which elements
are put in never shows.
-/

namespace NixStore

/-- Puts an element into an increasing list, at its place, unless it is there already. -/
def insertSorted {α : Type} [LT α] [DecidableLT α] [DecidableEq α] (a : α) : List α → List α
  | [] => [a]
  | b :: rest =>
    if a = b then b :: rest
    else if a < b then a :: b :: rest
    else b :: insertSorted a rest

section

variable {α : Type} [LT α] [DecidableLT α] [DecidableEq α]

@[simp] theorem mem_insertSorted {a x : α} {l : List α} :
    x ∈ insertSorted a l ↔ x = a ∨ x ∈ l := by
  induction l with
  | nil => simp [insertSorted]
  | cons b rest ih =>
    simp only [insertSorted]
    split
    · next h => simp [h]
    split
    · simp
    · simp [ih, or_left_comm]

theorem length_insertSorted {a : α} {l : List α} (h : a ∉ l) :
    (insertSorted a l).length = l.length + 1 := by
  induction l with
  | nil => rfl
  | cons b rest ih =>
    simp only [List.mem_cons, not_or] at h
    simp only [insertSorted, h.1, if_false]
    split <;> simp [ih h.2]

theorem pairwise_insertSorted [Trans (α := α) (· < ·) (· < ·) (· < ·)]
    [Std.Trichotomous (α := α) (· < ·)] (a : α) {l : List α} (h : l.Pairwise (· < ·)) :
    (insertSorted a l).Pairwise (· < ·) := by
  induction l with
  | nil => simp [insertSorted]
  | cons b rest ih =>
    obtain ⟨hb, hrest⟩ := List.pairwise_cons.1 h
    simp only [insertSorted]
    split
    · exact h
    split
    · next hab =>
      refine List.pairwise_cons.2 ⟨?_, h⟩
      intro x hx
      rcases List.mem_cons.1 hx with rfl | hx
      · exact hab
      · exact Trans.trans hab (hb x hx)
    · next hne hab =>
      refine List.pairwise_cons.2 ⟨?_, ih hrest⟩
      intro x hx
      rcases mem_insertSorted.1 hx with rfl | hx
      · exact Classical.byContradiction fun hba ↦
          hne (Std.Trichotomous.trichotomous (r := (· < ·)) _ _ hab hba)
      · exact hb x hx

end

/-- A finite set, as the increasing list of its elements. -/
structure Increasing (α : Type) [LT α] where
  toList : List α
  sorted : toList.Pairwise (· < ·)

namespace Increasing

variable {α : Type} [LT α]

instance : Membership α (Increasing α) := ⟨fun s a ↦ a ∈ s.toList⟩

theorem mem_iff {s : Increasing α} {a : α} : a ∈ s ↔ a ∈ s.toList := Iff.rfl

instance [DecidableEq α] (s : Increasing α) (a : α) : Decidable (a ∈ s) :=
  inferInstanceAs (Decidable (a ∈ s.toList))

def empty : Increasing α := ⟨[], List.Pairwise.nil⟩

def singleton (a : α) : Increasing α := ⟨[a], List.pairwise_singleton _ a⟩

@[simp] theorem mem_singleton {a x : α} : x ∈ singleton a ↔ x = a := by
  simp [mem_iff, singleton]

def size (s : Increasing α) : Nat := s.toList.length

theorem nodup [Std.Irrefl (α := α) (· < ·)] (s : Increasing α) : s.toList.Nodup :=
  List.Pairwise.imp (S := (· ≠ ·))
    (fun {a b} h heq ↦ Std.Irrefl.irrefl (r := (· < ·)) a (by rwa [← heq] at h)) s.sorted

variable [DecidableLT α] [DecidableEq α] [Trans (α := α) (· < ·) (· < ·) (· < ·)]
  [Std.Trichotomous (α := α) (· < ·)]

def insert (s : Increasing α) (a : α) : Increasing α :=
  ⟨insertSorted a s.toList, pairwise_insertSorted a s.sorted⟩

@[simp] theorem mem_insert {s : Increasing α} {a x : α} : x ∈ s.insert a ↔ x = a ∨ x ∈ s :=
  mem_insertSorted

theorem size_insert {s : Increasing α} {a : α} (h : a ∉ s) : (s.insert a).size = s.size + 1 :=
  length_insertSorted h

def ofList (l : List α) : Increasing α := l.foldl insert empty

end Increasing

end NixStore
