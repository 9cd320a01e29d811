import NixStore.Database.History

/-!
# The rows that statements leave

A number and a path name the same row of the valid paths, and every reference and every output
belongs to rows that are there: a registration adds references only to paths that have a row by
then, and a row is never taken away. Besides, every row and every output is there because of a
statement that was made, so what holds of all texts of the statements holds of the tables.

With this the answers to all questions come from two relations between paths, one path refers to
another one, and a derivation makes a path. Each is asked for from both of its ends.
-/

namespace NixStore

/-- Some statements register a path, and not all of them break off. -/
def Registered (history : List Statement) (path : Text) : Prop :=
  ∃ r, .register r ∈ history ∧ r.path = path ∧ r.time?.isSome

theorem Registered.mono {history history' : List Statement} {path : Text}
    (h : Registered history path) (hsub : history ⊆ history') : Registered history' path := by
  obtain ⟨r, hr, hpath⟩ := h
  exact ⟨r, hsub hr, hpath⟩

/-- A registration that tells of a path no more than its deriver and what it refers to. -/
def Registration.plain (path : Text) (deriver : Option Text) (references : Increasing Text) :
    Registration :=
  ⟨path, [], .epoch, deriver, none, false, none, none, references⟩

/-- The record of a registration: all columns give back what was put into them, but of the time only
the seconds are there, and an empty text stands for none. -/
def Registration.record (r : Registration) (time : Int64) (id : Nat) : PathRecord where
  id := id
  path := r.path
  hash := r.hash
  registrationTime := .ofUnix time
  deriver := nonEmpty? r.deriver
  archiveSize := r.archiveSize
  ultimate := r.ultimate
  signatures := r.signatures
  contentAddress := nonEmpty? r.contentAddress

theorem Registration.read_row (r : Registration) (time : Int64) (id : Nat) :
    (r.row time id).read = .ok (r.record time id) := by
  have htext : ∀ (t : Option Text) (index : Nat) (name : String),
      (Cell.ofText? t).readOptional (Cell.readText index name) = .ok t := fun t _ _ ↦ by
    cases t <;> rfl
  have hsize : (r.row time id).archiveSize.readOptional (Cell.readInteger 5 "narSize")
      = .ok (r.archiveSize.map UInt64.toInt64) := by
    rw [row]
    cases r.archiveSize <;> rfl
  have hround : (r.archiveSize.map UInt64.toInt64).map Int64.toUInt64 = r.archiveSize := by
    cases r.archiveSize <;> rfl
  have hultimate : decide ((if r.ultimate then 1 else 0 : Int64) ≠ 0) = r.ultimate := by
    cases r.ultimate <;> rfl
  have hread : (r.row time id).read = do
      let deriver ← (Cell.ofText? r.deriver).readOptional (Cell.readText 4 "deriver")
      let size ← (r.row time id).archiveSize.readOptional (Cell.readInteger 5 "narSize")
      let signatures ← (Cell.ofText? r.signatures).readOptional (Cell.readText 7 "sigs")
      let contentAddress ← (Cell.ofText? r.contentAddress).readOptional (Cell.readText 8 "ca")
      return ⟨id, r.path, r.hash, .ofUnix time, nonEmpty? deriver,
        size.map Int64.toUInt64, decide ((if r.ultimate then 1 else 0 : Int64) ≠ 0), signatures,
        nonEmpty? contentAddress⟩ := rfl
  rw [hread, htext, htext, htext, hsize, hultimate, record]
  simp only [bind, Except.bind, pure, Except.pure, hround]

namespace Tables

variable {made : Statement → Prop} {t : Tables} {r : Registration} {time : Int64} {id : Nat}
  {p q : Text}

/-- A path has the row with a number. -/
def Holds (t : Tables) (id : Nat) (p : Text) : Prop := ∃ row ∈ t.paths, row.id = id ∧ row.path = p

/-- A path refers to another one. -/
def Refers (t : Tables) (p q : Text) : Prop :=
  ∃ x ∈ t.references, t.Holds x.referrer p ∧ t.Holds x.reference q

/-- A derivation has a path as one of its outputs. -/
def Makes (t : Tables) (drv p : Text) : Prop := ∃ o ∈ t.outputs, t.Holds o.drv drv ∧ o.path = p

/-- The row of a path names a deriver. -/
def Derives (t : Tables) (p drv : Text) : Prop :=
  ∃ row ∈ t.paths, row.path = p ∧ row.deriver = .text drv

/-- The rows name each other, and come from statements that were made. -/
structure Linked (made : Statement → Prop) (t : Tables) : Prop where
  id_le : ∀ row ∈ t.paths, row.id ≤ t.lastId
  eq_of_id : ∀ row ∈ t.paths, ∀ row' ∈ t.paths, row.id = row'.id → row = row'
  eq_of_path : ∀ row ∈ t.paths, ∀ row' ∈ t.paths, row.path = row'.path → row = row'
  ends : ∀ x ∈ t.references, (∃ p, t.Holds x.referrer p) ∧ ∃ q, t.Holds x.reference q
  registered : ∀ row ∈ t.paths, ∃ r time, made (.register r) ∧ r.time? = some time ∧
    row = r.row time row.id
  recorded : ∀ o ∈ t.outputs, ∃ drv, t.Holds o.drv drv ∧ made (.registerOutput drv o.id o.path)

/-! ## Rows by path and by number -/

theorem find?_key_eq_some_iff {α κ : Type} [DecidableEq κ] {l : List α} {key : α → κ}
    (h : ∀ a ∈ l, ∀ b ∈ l, key a = key b → a = b) {k : κ} {a : α} :
    l.find? (key · = k) = some a ↔ a ∈ l ∧ key a = k := by
  have key_eq : ∀ {b}, l.find? (key · = k) = some b → key b = k := fun hfind ↦
    of_decide_eq_true (List.find?_some (p := (key · = k)) hfind)
  constructor
  · exact fun ha ↦ ⟨List.mem_of_find?_eq_some ha, key_eq ha⟩
  · rintro ⟨hmem, ha⟩
    cases hfind : l.find? (key · = k) with
    | none => exact absurd (decide_eq_true ha) (List.find?_eq_none.1 hfind a hmem)
    | some b =>
      exact congrArg some
        (h b (List.mem_of_find?_eq_some hfind) a hmem ((key_eq hfind).trans ha.symm))

theorem isValid_iff : t.isValid p ↔ ∃ id, t.Holds id p := by
  rw [isValid, row?, List.find?_isSome]
  constructor
  · rintro ⟨row, hrow, hp⟩
    exact ⟨row.id, row, hrow, rfl, of_decide_eq_true hp⟩
  · rintro ⟨id, row, hrow, -, hp⟩
    exact ⟨row, hrow, decide_eq_true hp⟩

theorem id?_eq_none_iff : t.id? p = none ↔ ¬t.isValid p := by
  rw [id?, Option.map_eq_none_iff, isValid, Option.not_isSome_iff_eq_none]

theorem Holds.isValid (h : t.Holds id p) : t.isValid p := isValid_iff.2 ⟨id, h⟩

theorem Refers.isValid (h : t.Refers p q) : t.isValid p ∧ t.isValid q := by
  obtain ⟨x, -, hp, hq⟩ := h
  exact ⟨hp.isValid, hq.isValid⟩

theorem Makes.isValid (h : t.Makes p q) : t.isValid p := by
  obtain ⟨o, -, hp, -⟩ := h
  exact hp.isValid

namespace Linked

theorem row?_eq_some_iff (h : t.Linked made) {row : PathRow} :
    t.row? p = some row ↔ row ∈ t.paths ∧ row.path = p :=
  find?_key_eq_some_iff h.eq_of_path

theorem id?_eq_some_iff (h : t.Linked made) : t.id? p = some id ↔ t.Holds id p := by
  simp only [id?, Option.map_eq_some_iff, h.row?_eq_some_iff]
  constructor
  · rintro ⟨row, ⟨hmem, hp⟩, hid⟩
    exact ⟨row, hmem, hid, hp⟩
  · rintro ⟨row, hmem, hid, hp⟩
    exact ⟨row, ⟨hmem, hp⟩, hid⟩

theorem path?_eq_some_iff (h : t.Linked made) : t.path? id = some p ↔ t.Holds id p := by
  simp only [path?, Option.map_eq_some_iff, find?_key_eq_some_iff h.eq_of_id, and_assoc, Holds]

theorem path_unique (h : t.Linked made) (hp : t.Holds id p) (hq : t.Holds id q) : p = q :=
  Option.some.inj ((h.path?_eq_some_iff.2 hp).symm.trans (h.path?_eq_some_iff.2 hq))

theorem id_unique (h : t.Linked made) {id' : Nat} (hid : t.Holds id p) (hid' : t.Holds id' p) :
    id = id' :=
  Option.some.inj ((h.id?_eq_some_iff.2 hid).symm.trans (h.id?_eq_some_iff.2 hid'))

theorem not_holds_next (h : t.Linked made) : ¬t.Holds (t.lastId + 1) p := by
  rintro ⟨row, hrow, hid, -⟩
  have hle := h.id_le row hrow
  rw [hid] at hle
  exact Nat.not_succ_le_self _ hle

end Linked

theorem Linked.exists_registration (h : t.Linked made) (hp : t.isValid p) :
    ∃ (r : Registration) (time : Int64) (id : Nat), made (.register r) ∧ r.time? = some time ∧
      t.row? p = some (r.row time id) ∧ t.Holds id p := by
  obtain ⟨row, hrow⟩ := Option.isSome_iff_exists.1 hp
  obtain ⟨hmem, hpath⟩ := h.row?_eq_some_iff.1 hrow
  obtain ⟨r, time, hr, htime, heq⟩ := h.registered row hmem
  exact ⟨r, time, row.id, hr, htime, heq ▸ hrow, row, hmem, rfl, hpath⟩

theorem Linked.derives_iff (h : t.Linked made) {row : PathRow} (hrow : row ∈ t.paths)
    (hp : row.path = p) : t.Derives p q ↔ row.deriver = .text q := by
  constructor
  · rintro ⟨row', hrow', hp', hderiver⟩
    rwa [h.eq_of_path row hrow row' hrow' (hp.trans hp'.symm)]
  · exact fun hderiver ↦ ⟨row, hrow, hp, hderiver⟩

theorem Linked.mono {made' : Statement → Prop} (h : t.Linked made)
    (hmade : ∀ statement, made statement → made' statement) : t.Linked made' where
  id_le := h.id_le
  eq_of_id := h.eq_of_id
  eq_of_path := h.eq_of_path
  ends := h.ends
  registered row hrow := by
    obtain ⟨r, time, hr, hrow⟩ := h.registered row hrow
    exact ⟨r, time, hmade _ hr, hrow⟩
  recorded o ho := by
    obtain ⟨drv, hdrv, ho⟩ := h.recorded o ho
    exact ⟨drv, hdrv, hmade _ ho⟩

theorem Linked.recorded_of_makes (h : t.Linked made) (hmakes : t.Makes p q) :
    ∃ name, made (.registerOutput p name q) := by
  obtain ⟨o, ho, hp, rfl⟩ := hmakes
  obtain ⟨drv, hdrv, hmade⟩ := h.recorded o ho
  exact ⟨o.id, h.path_unique hdrv hp ▸ hmade⟩

/-! ## Answers -/

theorem mem_sortTexts {ts : List Text} : p ∈ sortTexts ts ↔ p ∈ ts := List.mem_mergeSort

theorem record?_of_row? {row : PathRow} (hrow : t.row? p = some row) :
    Database.record? ⟨t, [], true⟩ p = row.read.map some := by
  rw [Database.record?]
  simp only [hrow]
  cases row.read <;> rfl

theorem record?_of_none (hrow : t.row? p = none) :
    Database.record? ⟨t, [], true⟩ p = .ok none := by
  rw [Database.record?]
  simp only [hrow]
  rfl

theorem references_eq (t : Tables) (id : Nat) :
    Database.references ⟨t, [], true⟩ id = .ok (t.referencesOf id) :=
  congrArg Except.ok (if_pos (Int.natCast_nonneg id))

namespace Linked

variable (h : t.Linked made)

include h

theorem mem_referencesOf (hp : t.Holds id p) : q ∈ t.referencesOf id ↔ t.Refers p q := by
  simp only [referencesOf, mem_sortTexts, List.mem_filterMap, List.mem_filter, decide_eq_true_eq,
    h.path?_eq_some_iff]
  constructor
  · rintro ⟨x, ⟨hx, rfl⟩, hq⟩
    exact ⟨x, hx, hp, hq⟩
  · rintro ⟨x, hx, hp', hq⟩
    exact ⟨x, ⟨hx, h.id_unique hp' hp⟩, hq⟩

theorem mem_referrersOf : q ∈ t.referrersOf p ↔ t.Refers q p := by
  rw [referrersOf]
  cases hid : t.id? p with
  | none =>
    refine ⟨nofun, fun ⟨x, _, _, hp⟩ ↦ ?_⟩
    rw [h.id?_eq_some_iff.2 hp] at hid
    cases hid
  | some id =>
    have hp := h.id?_eq_some_iff.1 hid
    simp only [mem_sortTexts, List.mem_filterMap, List.mem_filter, decide_eq_true_eq,
      h.path?_eq_some_iff]
    constructor
    · rintro ⟨x, ⟨hx, rfl⟩, hq⟩
      exact ⟨x, hx, hq, hp⟩
    · rintro ⟨x, hx, hq, hp'⟩
      exact ⟨x, ⟨hx, h.id_unique hp' hp⟩, hq⟩

theorem mem_deriversOf : q ∈ t.deriversOf p ↔ t.Makes q p := by
  simp only [deriversOf, mem_sortTexts, List.mem_filterMap, List.mem_filter, decide_eq_true_eq,
    h.path?_eq_some_iff]
  constructor
  · rintro ⟨o, ⟨ho, hp⟩, hq⟩
    exact ⟨o, ho, hq, hp⟩
  · rintro ⟨o, ho, hq, hp⟩
    exact ⟨o, ⟨ho, hp⟩, hq⟩

theorem mem_outputsOf : q ∈ t.outputsOf p ↔ t.Makes p q := by
  rw [outputsOf]
  cases hid : t.id? p with
  | none =>
    refine ⟨nofun, fun ⟨o, _, hp, _⟩ ↦ ?_⟩
    rw [h.id?_eq_some_iff.2 hp] at hid
    cases hid
  | some id =>
    have hp := h.id?_eq_some_iff.1 hid
    simp only [List.mem_map, List.mem_mergeSort, List.mem_filter, decide_eq_true_eq]
    constructor
    · rintro ⟨o, ⟨ho, rfl⟩, hq⟩
      exact ⟨o, ho, hp, hq⟩
    · rintro ⟨o, ho, hp', hq⟩
      exact ⟨o, ⟨ho, h.id_unique hp' hp⟩, hq⟩

end Linked

/-! ## Statements -/

/-- The tables with a row for a registration, but without its references yet. -/
def withRow (t : Tables) (r : Registration) (time : Int64) : Tables :=
  { t with paths := t.paths ++ [r.row time (t.lastId + 1)], lastId := t.lastId + 1 }

/-- The tables with a row for a registration, and with its references to the rows that are there. -/
def withRegistration (t : Tables) (r : Registration) (time : Int64) : Tables :=
  { t.withRow r time with
    references := t.references ++
      (t.withRow r time).newReferences (t.lastId + 1) r.references.toList }

theorem register_eq (t : Tables) (r : Registration) (time : Int64) :
    t.register r time = if t.isValid r.path then .error (.unique "ValidPaths" "path") else
      .ok (t.lastId + 1, t.withRegistration r time) := by
  have hinsert : t.insertRow (r.row time) = if t.isValid r.path
      then .error (.unique "ValidPaths" "path") else .ok (t.withRow r time) := rfl
  rw [register, hinsert]
  split <;> rfl

/-- A registration breaks off, or fails since the path has a row, or adds a row and references. -/
theorem apply_register (t : Tables) (r : Registration) :
    (r.time? = none ∨ t.isValid r.path) ∧ t.apply (.register r) = t ∨
      ∃ time, r.time? = some time ∧ ¬t.isValid r.path ∧
        t.apply (.register r) = t.withRegistration r time := by
  rw [apply]
  cases r.time? with
  | none => exact .inl ⟨.inl rfl, rfl⟩
  | some time =>
    rw [Option.map_some, register_eq]
    by_cases hvalid : t.isValid r.path
    · rw [if_pos hvalid]
      exact .inl ⟨.inr hvalid, rfl⟩
    · rw [if_neg hvalid]
      exact .inr ⟨time, rfl, hvalid, rfl⟩

theorem outputs_register : (t.apply (.register r)).outputs = t.outputs := by
  obtain ⟨-, heq⟩ | ⟨time, -, -, heq⟩ := t.apply_register r
  · rw [heq]
  · rw [heq, withRegistration, withRow]

theorem mem_paths_withRow {row : PathRow} :
    row ∈ (t.withRow r time).paths ↔ row ∈ t.paths ∨ row = r.row time (t.lastId + 1) := by
  rw [withRow, List.mem_append, List.mem_singleton]

theorem holds_withRow :
    (t.withRow r time).Holds id p ↔ t.Holds id p ∨ t.lastId + 1 = id ∧ r.path = p := by
  simp only [Holds, mem_paths_withRow, or_and_right, exists_or, exists_eq_left, Registration.row]

theorem apply_register_of_new (htime : r.time? = some time) (hnew : ¬t.isValid r.path) :
    t.apply (.register r) = t.withRegistration r time := by
  rw [apply, htime, Option.map_some, register_eq, if_neg hnew]

/-- The path of a registration that succeeds gets the number that is next. -/
theorem holds_register (htime : r.time? = some time) (hnew : ¬t.isValid r.path) :
    (t.apply (.register r)).Holds (t.lastId + 1) r.path := by
  rw [apply_register_of_new htime hnew]
  exact holds_withRow.2 (.inr ⟨rfl, rfl⟩)

namespace Linked

theorem empty : Tables.empty.Linked made where
  id_le _ hrow := absurd hrow List.not_mem_nil
  eq_of_id _ hrow := absurd hrow List.not_mem_nil
  eq_of_path _ hrow := absurd hrow List.not_mem_nil
  ends _ hx := absurd hx List.not_mem_nil
  registered _ hrow := absurd hrow List.not_mem_nil
  recorded _ ho := absurd ho List.not_mem_nil

variable (h : t.Linked made)

include h

theorem withRow (hmade : made (.register r)) (htime : r.time? = some time)
    (hnew : ¬t.isValid r.path) : (t.withRow r time).Linked made where
  id_le row hrow := by
    rcases mem_paths_withRow.1 hrow with hrow | rfl
    · exact Nat.le_succ_of_le (h.id_le row hrow)
    · exact Nat.le_refl _
  eq_of_id row hrow row' hrow' hid := by
    have hless : ∀ row ∈ t.paths, row.id ≠ t.lastId + 1 := fun row hrow ↦
      Nat.ne_of_lt (Nat.lt_succ_of_le (h.id_le row hrow))
    rcases mem_paths_withRow.1 hrow with hrow | rfl <;>
      rcases mem_paths_withRow.1 hrow' with hrow' | rfl
    · exact h.eq_of_id row hrow row' hrow' hid
    · exact absurd hid (hless row hrow)
    · exact absurd hid.symm (hless row' hrow')
    · rfl
  eq_of_path row hrow row' hrow' hp := by
    have hother : ∀ row ∈ t.paths, row.path ≠ r.path := fun row hrow hp ↦
      hnew (isValid_iff.2 ⟨row.id, row, hrow, rfl, hp⟩)
    rcases mem_paths_withRow.1 hrow with hrow | rfl <;>
      rcases mem_paths_withRow.1 hrow' with hrow' | rfl
    · exact h.eq_of_path row hrow row' hrow' hp
    · exact absurd hp (hother row hrow)
    · exact absurd hp.symm (hother row' hrow')
    · rfl
  ends x hx := by
    obtain ⟨⟨p, hp⟩, q, hq⟩ := h.ends x hx
    exact ⟨⟨p, holds_withRow.2 (.inl hp)⟩, q, holds_withRow.2 (.inl hq)⟩
  registered row hrow := by
    rcases mem_paths_withRow.1 hrow with hrow | rfl
    · exact h.registered row hrow
    · exact ⟨r, time, hmade, htime, rfl⟩
  recorded o ho := by
    obtain ⟨drv, hdrv, hrecorded⟩ := h.recorded o ho
    exact ⟨drv, holds_withRow.2 (.inl hdrv), hrecorded⟩

theorem newReferences {referrer : Nat} (hp : t.Holds referrer p) (references : List Text) :
    Linked made { t with references := t.references ++ t.newReferences referrer references } where
  id_le := h.id_le
  eq_of_id := h.eq_of_id
  eq_of_path := h.eq_of_path
  ends x hx := by
    rcases List.mem_append.1 hx with hx | hx
    · exact h.ends x hx
    · obtain ⟨q, -, hq⟩ := List.mem_filterMap.1 hx
      obtain ⟨id, hid, rfl⟩ := Option.map_eq_some_iff.1 hq
      exact ⟨⟨p, hp⟩, q, h.id?_eq_some_iff.1 hid⟩
  registered := h.registered
  recorded := h.recorded

theorem registerOutput {drv name path : Text} (hmade : made (.registerOutput drv name path)) :
    (t.registerOutput drv name path).Linked made := by
  rw [Tables.registerOutput]
  cases hid : t.id? drv with
  | none => exact h
  | some id =>
    have hdrv := h.id?_eq_some_iff.1 hid
    exact {
      id_le := h.id_le
      eq_of_id := h.eq_of_id
      eq_of_path := h.eq_of_path
      ends := h.ends
      registered := h.registered
      recorded := fun o ho ↦ by
        rcases List.mem_append.1 ho with ho | ho
        · exact h.recorded o (List.mem_filter.1 ho |>.1)
        · rw [List.mem_singleton.1 ho]
          exact ⟨drv, hdrv, hmade⟩ }

theorem apply {statement : Statement} (hmade : made statement) :
    (t.apply statement).Linked made := by
  cases statement with
  | registerOutput drv name path => exact h.registerOutput hmade
  | register r =>
    obtain ⟨-, heq⟩ | ⟨time, htime, hnew, heq⟩ := t.apply_register r
    · rwa [heq]
    · rw [heq]
      exact (h.withRow hmade htime hnew).newReferences (holds_withRow.2 (.inr ⟨rfl, rfl⟩)) _

end Linked

theorem linked_after (history : List Statement) : (after history).Linked (· ∈ history) := by
  suffices ∀ (rest : List Statement) t, (∀ statement ∈ rest, statement ∈ history) →
      Linked (· ∈ history) t → Linked (· ∈ history) (rest.foldl apply t) from
    this history empty (fun _ h ↦ h) .empty
  intro rest
  induction rest with
  | nil => exact fun t _ h ↦ h
  | cons statement rest ih =>
    intro t hrest h
    exact ih _ (fun s hs ↦ hrest s (List.mem_cons_of_mem _ hs))
      (h.apply (hrest statement List.mem_cons_self))

/-! ## What is valid -/

theorem isValid_withRow : (t.withRow r time).isValid p ↔ t.isValid p ∨ r.path = p := by
  simp only [isValid_iff, holds_withRow, exists_or, exists_eq_left']

theorem isValid_apply {statement : Statement} : (t.apply statement).isValid p ↔
    t.isValid p ∨ ∃ r, statement = .register r ∧ r.path = p ∧ r.time?.isSome := by
  cases statement with
  | registerOutput drv name path =>
    have hsame : (t.registerOutput drv name path).isValid p = t.isValid p := by
      rw [registerOutput]
      cases t.id? drv <;> rfl
    simp only [apply, hsame, reduceCtorEq, false_and, exists_false, or_false]
  | register r =>
    simp only [Statement.register.injEq, exists_eq_left']
    obtain ⟨hnot, heq⟩ | ⟨time, htime, -, heq⟩ := t.apply_register r
    · rw [heq, iff_self_or]
      rintro ⟨rfl, htime⟩
      rcases hnot with hnone | hvalid
      · rw [hnone] at htime
        cases htime
      · exact hvalid
    · rw [heq, htime, Option.isSome_some, and_iff_left rfl]
      exact isValid_withRow

theorem isValid_after {history : List Statement} :
    (after history).isValid p ↔ Registered history p := by
  suffices ∀ t, (history.foldl apply t).isValid p ↔ t.isValid p ∨ Registered history p from
    (this empty).trans (or_iff_right nofun)
  induction history with
  | nil => exact fun t ↦ (or_iff_left fun ⟨_, h, _⟩ ↦ absurd h List.not_mem_nil).symm
  | cons statement rest ih =>
    intro t
    rw [List.foldl_cons, ih, isValid_apply, or_assoc]
    refine or_congr_right ?_
    simp only [Registered, List.mem_cons, or_and_right, exists_or, eq_comm (a := statement)]

end Tables

end NixStore
