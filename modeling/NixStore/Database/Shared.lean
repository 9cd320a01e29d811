import NixStore.Database.History

/-!
# Databases that others write to

A database is read anew for every question, and whoever else has it open may commit statements
between two of them. Each question sees the statements of whole transactions, in the order in which
they were committed.
-/

namespace NixStore

/-- A database to which others commit. -/
structure SharedDatabase where
  database : Database
  /-- What is still to be committed: the statements before each of the next questions. -/
  commits : List (List Statement)

namespace SharedDatabase

/-- Commits what comes before the next question. -/
def advance (st : SharedDatabase) : SharedDatabase :=
  match st.commits with
  | [] => st
  | batch :: commits => ⟨batch.foldl Database.apply st.database, commits⟩

def read : StateM SharedDatabase (Except DatabaseError Database) := fun st ↦
  (.ok st.advance.database, st.advance)

/-- One state of a database comes after another one, when some transactions were committed. -/
def Follows (st st' : SharedDatabase) : Prop :=
  ∃ committed, st.commits = committed ++ st'.commits ∧
    st'.database = committed.flatten.foldl Database.apply st.database

theorem Follows.refl (st : SharedDatabase) : st.Follows st := ⟨[], rfl, rfl⟩

theorem Follows.trans {st st' st'' : SharedDatabase} (h : st.Follows st') (h' : st'.Follows st'') :
    st.Follows st'' := by
  obtain ⟨committed, hcommits, hdatabase⟩ := h
  obtain ⟨committed', hcommits', hdatabase'⟩ := h'
  refine ⟨committed ++ committed', ?_, ?_⟩
  · rw [hcommits, hcommits', List.append_assoc]
  · rw [hdatabase', hdatabase, List.flatten_append, List.foldl_append]

theorem follows_advance (st : SharedDatabase) : st.Follows st.advance := by
  rw [advance]
  cases hcommits : st.commits with
  | nil => exact .refl st
  | cons batch commits => exact ⟨[batch], hcommits, by rw [List.flatten_singleton]⟩

end SharedDatabase

end NixStore
