import NixStore.Proofs.Database.HashPart
import NixStore.Proofs.Engine.Registered

/-!
# The path with a hash part

A store asks its database for the least path that begins with its directory and a hash part, and
reads what is found as one of its paths. If all paths of the table are paths of the directory, those
that begin so are the ones with the hash part, whatever stands around them. Of the table nothing
else is needed, neither that a path is there only once nor that it came there by a registration.
-/

namespace NixStore

theorem HashPart.text_injective {h h' : HashPart} (htext : h.text = h'.text) : h = h' := by
  cases h
  cases h'
  cases htext
  rfl

/-- The full path of a store path begins with a hash part exactly if that is the path's own. -/
theorem StoreDir.isPrefix_print_iff {d : StoreDir} {hash : HashPart} {p : StorePath} :
    d.text ++ '/' :: hash.text <+: d.print p ↔ p.hashPart = hash := by
  rw [print, StorePath.text, List.prefix_append_right_inj, List.prefix_cons_inj]
  constructor
  · intro h
    have hlength : hash.text.length = p.hashPart.text.length := by
      rw [hash.length_text, p.hashPart.length_text]
    rw [List.prefix_iff_eq_take, hlength, List.take_left] at h
    exact HashPart.text_injective h.symm
  · rintro rfl
    exact List.prefix_append _ _

namespace LocalStore

open Engine (Answers)

/-- The engine of a store whose database and disk stay as they are. -/
def engineOn (s : LocalStore) (db : Database) (disk : FileNode) : Engine Id :=
  s.engine (pure (.ok db)) (pure disk)

variable {db : Database} {s : LocalStore} {disk : FileNode}

theorem answers_isValid_iff (hpaths : TableName.paths ∉ db.missing) {p : StorePath} :
    Answers ((s.engineOn db disk).isValid p) true ↔
      ∃ row ∈ db.tables.paths, row.path = s.storeDir.print p := by
  have hanswer : Answers ((s.engineOn db disk).isValid p)
      (db.tables.isValid (s.storeDir.print p)) :=
    answers_statement (Database.isValid_eq hpaths _)
  rw [← Tables.isValid_iff_exists_row]
  exact ⟨fun h ↦ hanswer.unique h, fun h ↦ h ▸ hanswer⟩

/-- **Looking up a hash part is exact.** Whatever paths the table of valid paths holds, the database
finds the least one, byte by byte, that begins with the directory and the hash part, and finds
nothing only if none does. If all of them are full paths of the store's directory, the store answers
with a valid path that has the hash part, or, only if no valid path has it, with none. -/
theorem hash_part_lookup_exact (hpaths : TableName.paths ∉ db.missing) (s : LocalStore)
    (hash : HashPart) (disk : FileNode) :
    (∃ found, db.ofHashPart s.storeDir.text hash.text = .ok found ∧
      (∀ p, found = some p ↔ db.tables.LeastWith (s.storeDir.text ++ '/' :: hash.text) p) ∧
      (found = none ↔
        ∀ row ∈ db.tables.paths, ¬s.storeDir.text ++ '/' :: hash.text <+: row.path)) ∧
    ((∀ row ∈ db.tables.paths, s.storeDir.Reads row.path) →
      ∃ found, Answers ((s.engineOn db disk).ofHashPart hash) found ∧
        (∀ p, found = some p → Answers ((s.engineOn db disk).isValid p) true ∧ p.hashPart = hash) ∧
        (found = none →
          ∀ p, Answers ((s.engineOn db disk).isValid p) true → p.hashPart ≠ hash)) := by
  have hexact := Database.exists_ofHashPart hpaths s.storeDir.text hash.text
  refine ⟨hexact, fun hreads ↦ ?_⟩
  simp only [answers_isValid_iff hpaths]
  obtain ⟨_ | full, hfound, hsome, hnone⟩ := hexact
  · refine ⟨none, Answers.bind_iff.2 ⟨none, answers_statement hfound, rfl⟩, fun p hp ↦ ?_, ?_⟩
    · cases hp
    · rintro - p ⟨row, hrow, hpath⟩ hhash
      refine hnone.1 rfl row hrow ?_
      rw [hpath]
      exact StoreDir.isPrefix_print_iff.2 hhash
  · obtain ⟨⟨row, hrow, rfl⟩, hprefix, -⟩ := (hsome full).1 rfl
    obtain ⟨p, hp⟩ := hreads row hrow
    have hprint := StoreDir.parse_eq_ok_iff.1 hp
    have hparsed : (some row.path).mapM s.parse = .ok (some p) := by
      rw [Option.mapM_some, parse, hp]
      rfl
    refine ⟨some p, Answers.bind_iff.2 ⟨_, answers_statement hfound, ?_⟩, fun p' hp' ↦ ?_,
      fun hfound' ↦ ?_⟩
    · exact congrArg (fun x ↦ (known (m := Id) x).run) hparsed
    · cases hp'
      rw [hprint] at hprefix
      exact ⟨⟨row, hrow, hprint⟩, StoreDir.isPrefix_print_iff.1 hprefix⟩
    · cases hfound'

/-- The hash part of all ones. -/
private def ones : HashPart :=
  ⟨List.replicate hashPartLength '1', rfl, List.all_eq_true.1 rfl⟩

/-- A text behind a directory and a hash part of one digit. -/
private def beginning (dir : String) (digit : Char) (rest : String) : Text :=
  text dir ++ '/' :: List.replicate hashPartLength digit ++ text rest

/-- A table with three rows of one hash part, one of them without a name, neighbours on both sides,
a row that ends within the hash part and one of another directory. -/
private def neighbourhood : Database where
  tables := { Tables.empty with
    paths := [beginning "/nix/store" '2' "-x", beginning "/nix/store" '1' "-b",
        text "/nix/store/1", beginning "/nix/store" '0' "-z", beginning "/nix/store" '1' "-a",
        beginning "/nix/stor" '1' "-a", beginning "/nix/store" '1' "+"].map fun p ↦
      (Registration.plain p none .empty).row 0 1 }
  missing := []
  counted := true

theorem lookup_among_neighbours :
    TableName.paths ∉ neighbourhood.missing ∧
      neighbourhood.ofHashPart (text "/nix/store") ones.text
        = .ok (some (beginning "/nix/store" '1' "+")) := by
  have hpaths : TableName.paths ∉ neighbourhood.missing := List.not_mem_nil
  obtain ⟨⟨found, hfound, hleast, -⟩, -⟩ :=
    hash_part_lookup_exact hpaths inMemory ones (.directory [])
  have hleast : found = some (beginning "/nix/store" '1' "+") := by
    refine (hleast _).2 ⟨?_, ?_, ?_⟩
    · decide
    · decide
    · decide
  exact ⟨hpaths, hleast ▸ hfound⟩

end LocalStore

end NixStore
