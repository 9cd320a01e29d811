import NixStore.Database.Basic
import NixStore.Proofs.Database.Sorting
import NixStore.Proofs.Text.Order

/-!
# Looking up paths by their beginning

The table of valid paths is entered at the first path that is not below a text, and only that path
is held against the text. This finds a path that begins with the text whenever there is one, since
such paths lie together: what stands in the order between a text and a path that begins with it
begins with it as well. Nothing is asked of the other paths of the table.
-/

namespace NixStore

/-- Between a text and a text that begins with it, all texts begin with it. -/
theorem isPrefix_of_between {start p q : Text} (hp : start <+: p) (hstart : mayPrecede start q)
    (hq : mayPrecede q p) : start <+: q := by
  rw [mayPrecede_iff] at hstart hq
  induction start generalizing p q with
  | nil => exact List.nil_prefix
  | cons a start ih =>
    obtain ⟨p, rfl⟩ : ∃ p', p = a :: p' := by
      obtain ⟨more, rfl⟩ := hp
      exact ⟨start ++ more, rfl⟩
    cases q with
    | nil => exact absurd (List.nil_lt_cons a start) hstart
    | cons b q =>
      simp only [List.cons_lt_cons_iff, not_or, not_and] at hstart hq
      obtain rfl : b = a := Std.Trichotomous.trichotomous (r := (· < ·)) b a hstart.1 hq.1
      rw [List.prefix_cons_inj] at hp ⊢
      exact ih hp (hstart.2 rfl) (hq.2 rfl)

theorem mayPrecede_of_isPrefix {start p : Text} (h : start <+: p) : mayPrecede start p :=
  mayPrecede_iff.2 h.le

theorem mayPrecede_iff_utf8_le {p q : Text} : mayPrecede p q ↔ Text.utf8 p ≤ Text.utf8 q := by
  rw [mayPrecede_iff, ← List.not_lt]
  refine not_congr ⟨Text.utf8_lt_utf8, fun h ↦ ?_⟩
  by_cases hqp : mayPrecede p q
  · by_cases hpq : p = q
    · rw [hpq] at h
      exact absurd h (List.lt_irrefl _)
    · exact absurd (Text.utf8_lt_utf8 (lt_of_mayPrecede hqp hpq)) (List.lt_asymm h)
  · exact Decidable.not_not.1 (mt mayPrecede_iff.2 hqp)

namespace Tables

variable {t : Tables} {start p : Text}

theorem isValid_iff_exists_row : t.isValid p ↔ ∃ row ∈ t.paths, row.path = p := by
  simp [isValid, row?]

/-- The least path that is not below a text is told by what is valid. -/
theorem leastFrom?_eq_some_iff : t.leastFrom? start = some p ↔
    (t.isValid p ∧ mayPrecede start p) ∧
      ∀ q, t.isValid q ∧ mayPrecede start q → mayPrecede p q := by
  let rows := t.paths.filter fun r ↦ mayPrecede start r.path
  have hrows : ∀ q, t.isValid q ∧ mayPrecede start q ↔ ∃ row ∈ rows, row.path = q := fun q ↦ by
    simp only [rows, isValid_iff_exists_row, List.mem_filter]
    constructor
    · rintro ⟨⟨row, hrow, rfl⟩, hstart⟩
      exact ⟨row, ⟨hrow, hstart⟩, rfl⟩
    · rintro ⟨row, ⟨hrow, hstart⟩, rfl⟩
      exact ⟨⟨row, hrow, rfl⟩, hstart⟩
  simp only [hrows]
  rw [leastFrom?]
  rcases exists_least rows with ⟨hnil, hfold⟩ | ⟨least, hleast, hfold, hall⟩
  · rw [hfold, hnil]
    constructor
    · intro hnone
      cases hnone
    · rintro ⟨⟨row, hrow, -⟩, -⟩
      exact absurd hrow List.not_mem_nil
  · rw [hfold, Option.some.injEq]
    constructor
    · rintro rfl
      refine ⟨⟨least, hleast, rfl⟩, ?_⟩
      rintro q ⟨row, hrow, rfl⟩
      exact hall row hrow
    · rintro ⟨⟨row, hrow, rfl⟩, hmin⟩
      exact eq_of_mayPrecede (hall row hrow) (hmin _ ⟨least, hleast, rfl⟩)

theorem leastFrom?_eq_none_iff :
    t.leastFrom? start = none ↔ ∀ q, t.isValid q → ¬mayPrecede start q := by
  have hrows : (t.paths.filter fun r ↦ mayPrecede start r.path) = [] ↔
      ∀ q, t.isValid q → ¬mayPrecede start q := by
    simp only [List.filter_eq_nil_iff, isValid_iff_exists_row]
    constructor
    · rintro hall q ⟨row, hrow, rfl⟩
      exact hall row hrow
    · exact fun hall row hrow ↦ hall row.path ⟨row, hrow, rfl⟩
  rw [← hrows, leastFrom?]
  rcases exists_least (t.paths.filter fun r ↦ mayPrecede start r.path) with
    ⟨hnil, hfold⟩ | ⟨least, hleast, hfold, -⟩
  · exact iff_of_true hfold hnil
  · rw [hfold]
    exact iff_of_false (Option.some_ne_none _) (List.ne_nil_of_mem hleast)

theorem startingWith?_eq_some_iff : t.startingWith? start = some p ↔
    (t.isValid p ∧ start <+: p) ∧ ∀ q, t.isValid q → start <+: q → mayPrecede p q := by
  rw [startingWith?, Option.filter_eq_some_iff, leastFrom?_eq_some_iff, List.isPrefixOf_iff_prefix]
  constructor
  · rintro ⟨⟨⟨hp, -⟩, hmin⟩, hprefix⟩
    exact ⟨⟨hp, hprefix⟩, fun q hq hstart ↦ hmin q ⟨hq, mayPrecede_of_isPrefix hstart⟩⟩
  · rintro ⟨⟨hp, hprefix⟩, hmin⟩
    refine ⟨⟨⟨hp, mayPrecede_of_isPrefix hprefix⟩, fun q ⟨hq, hstart⟩ ↦ ?_⟩, hprefix⟩
    -- a path below the one found would lie between it and the text
    by_cases hpq : mayPrecede p q
    · exact hpq
    · have hqp : mayPrecede q p := mayPrecede_of_lt (Decidable.not_not.1 (mt mayPrecede_iff.2 hpq))
      exact hmin q hq (isPrefix_of_between hprefix hstart hqp)

theorem startingWith?_eq_none_iff :
    t.startingWith? start = none ↔ ∀ q, t.isValid q → ¬start <+: q := by
  constructor
  · intro hnone q hq hstart
    cases hleast : t.leastFrom? start with
    | none => exact leastFrom?_eq_none_iff.1 hleast q hq (mayPrecede_of_isPrefix hstart)
    | some p =>
      obtain ⟨⟨-, hfrom⟩, hmin⟩ := leastFrom?_eq_some_iff.1 hleast
      have hprefix : start <+: p :=
        isPrefix_of_between hstart hfrom (hmin q ⟨hq, mayPrecede_of_isPrefix hstart⟩)
      rw [startingWith?, hleast, Option.filter_some,
        if_pos (List.isPrefixOf_iff_prefix.2 hprefix)] at hnone
      cases hnone
  · intro hall
    refine Option.eq_none_iff_forall_ne_some.2 fun p hp ↦ ?_
    obtain ⟨⟨hvalid, hprefix⟩, -⟩ := startingWith?_eq_some_iff.1 hp
    exact hall p hvalid hprefix

/-! ## The path of a row -/

/-- A path of a table is the least one, byte by byte, of those that begin with a text. -/
structure LeastWith (t : Tables) (start p : Text) : Prop where
  exists_row : ∃ row ∈ t.paths, row.path = p
  isPrefix : start <+: p
  le : ∀ row ∈ t.paths, start <+: row.path → Text.utf8 p ≤ Text.utf8 row.path

theorem startingWith?_eq_some_iff_leastWith :
    t.startingWith? start = some p ↔ t.LeastWith start p := by
  simp only [startingWith?_eq_some_iff, isValid_iff_exists_row, mayPrecede_iff_utf8_le]
  constructor
  · rintro ⟨⟨hrow, hprefix⟩, hle⟩
    exact ⟨hrow, hprefix, fun row hrow hstart ↦ hle row.path ⟨row, hrow, rfl⟩ hstart⟩
  · rintro ⟨hrow, hprefix, hle⟩
    refine ⟨⟨hrow, hprefix⟩, ?_⟩
    rintro _ ⟨row, hrow, rfl⟩ hstart
    exact hle row hrow hstart

end Tables

namespace Database

variable {db : Database} (hpaths : TableName.paths ∉ db.missing)

include hpaths

theorem isValid_eq (p : Text) : db.isValid p = .ok (db.tables.isValid p) := by
  simp [isValid, require, hpaths, bind, Except.bind, pure, Except.pure]

theorem ofHashPart_eq (dir hash : Text) :
    db.ofHashPart dir hash = .ok (db.tables.startingWith? (dir ++ '/' :: hash)) := by
  simp [ofHashPart, require, hpaths, bind, Except.bind, pure, Except.pure]

/-- The database finds the least path that begins with a directory and a hash part, if there is
any. -/
theorem exists_ofHashPart (dir hash : Text) :
    ∃ found, db.ofHashPart dir hash = .ok found ∧
      (∀ p, found = some p ↔ db.tables.LeastWith (dir ++ '/' :: hash) p) ∧
      (found = none ↔ ∀ row ∈ db.tables.paths, ¬dir ++ '/' :: hash <+: row.path) := by
  refine ⟨_, ofHashPart_eq hpaths dir hash, fun p ↦ Tables.startingWith?_eq_some_iff_leastWith, ?_⟩
  rw [Tables.startingWith?_eq_none_iff]
  simp [Tables.isValid_iff_exists_row]

end Database

end NixStore
