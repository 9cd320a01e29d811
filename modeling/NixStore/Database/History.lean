import NixStore.Database.Basic

/-!
# Histories of databases

What a sequence of statements makes of tables that were empty, and of the database of a store
without paths. A statement that fails or breaks off changes nothing.
-/

namespace NixStore

/-- A statement that adds to the tables. -/
inductive Statement where
  | register (r : Registration)
  | registerOutput (drv id path : Text)

namespace Tables

def apply (t : Tables) : Statement → Tables
  | .register r =>
    match r.time?.map (t.register r) with
    | some (.ok (_, t')) => t'
    | _ => t
  | .registerOutput drv id path => t.registerOutput drv id path

/-- The tables after a sequence of statements. -/
def after (history : List Statement) : Tables := history.foldl apply empty

theorem after_append (history next : List Statement) :
    after (history ++ next) = next.foldl apply (after history) := by
  simp [after]

end Tables

namespace Database

def apply (db : Database) : Statement → Database
  | .register r =>
    match db.register .readWrite r with
    | .ok (_, db') => db'
    | .error _ => db
  | .registerOutput drv id path =>
    match db.registerOutput .readWrite drv id path with
    | .ok db' => db'
    | .error _ => db

/-- The database of a store after a sequence of statements. -/
def after (history : List Statement) : Database := history.foldl apply fresh

theorem apply_ofTables (t : Tables) (statement : Statement) :
    apply ⟨t, [], true⟩ statement = ⟨t.apply statement, [], true⟩ := by
  cases statement with
  | registerOutput drv id path => rfl
  | register r =>
    simp only [apply, register, Tables.apply]
    cases r.time? with
    | none => rfl
    | some time =>
      simp only [enter, require, Access.mayWrite, Option.map_some, bind, Except.bind]
      cases t.register r time with
      | error e => rfl
      | ok result =>
        obtain ⟨n, t'⟩ := result
        by_cases hsame : t'.references = t.references
        · simp only [hsame, ne_eq, not_true_eq_false, if_false]
          rfl
        · simp only [hsame, ne_eq, not_false_eq_true, if_true, List.not_mem_nil, if_false]
          rfl

/-- A sequence of statements changes the tables, and takes none away. -/
theorem after_eq (history : List Statement) : after history = ⟨Tables.after history, [], true⟩ := by
  suffices ∀ t, history.foldl apply ⟨t, [], true⟩ = ⟨history.foldl Tables.apply t, [], true⟩ from
    this .empty
  induction history with
  | nil => exact fun _ ↦ rfl
  | cons statement rest ih =>
    intro t
    rw [List.foldl_cons, apply_ofTables, ih, List.foldl_cons]

end Database

end NixStore
