import Mathlib.Data.List.Sort
import NixStore.Proofs.Database.Recall
import NixStore.Proofs.Moment

/-!
# One registration

A registration breaks off only at the earliest moment, whose seconds are out of range, and fails
only if its path is valid already. Then nothing of it stays: no row, and no number that was given
out for one. If it succeeds it gets a number greater than all before it, and of all other paths only
the referrers change, and only of those that were listed and valid.

The rows that are there keep their numbers, so whatever is found through a number that is in use
stays what it is. What has to be shown is that nothing was waiting for the new number: a reference
or an output names a row that was there when it was recorded.
-/

namespace NixStore

/-- An element that is not in an increasing list goes between two parts of it. -/
theorem exists_insertSorted {α : Type} [LT α] [DecidableLT α] [DecidableEq α] {a : α} {l : List α}
    (ha : a ∉ l) : ∃ below above, l = below ++ above ∧ insertSorted a l = below ++ a :: above := by
  induction l with
  | nil => exact ⟨[], [], rfl, rfl⟩
  | cons b rest ih =>
    obtain ⟨hab, hrest⟩ := not_or.1 (mt List.mem_cons.2 ha)
    obtain ⟨below, above, hsplit, hinsert⟩ := ih hrest
    rw [insertSorted, if_neg hab]
    split
    · exact ⟨[], b :: rest, rfl, rfl⟩
    · exact ⟨b :: below, above, by rw [hsplit, List.cons_append], by rw [hinsert, List.cons_append]⟩

namespace Tables

variable {made : Statement → Prop} {t : Tables} {r : Registration} {time : Int64} {id : Nat}
  {p q : Text}

/-! ## Rows and outputs -/

theorem deriversOf_register (h : t.Linked made) (q : Text) :
    (t.apply (.register r)).deriversOf q = t.deriversOf q := by
  have hgrow := growsTo_apply h (.register r)
  rw [deriversOf, outputs_register, deriversOf]
  refine congrArg sortTexts (List.filterMap_congr fun o ho ↦ ?_)
  obtain ⟨drv, hdrv, -⟩ := h.recorded o (List.mem_filter.1 ho).1
  have hpath := h.path?_eq_some_iff.2 hdrv
  rw [hpath, hgrow.path?_eq_some hpath]

section

variable (htime : r.time? = some time) (hnew : ¬t.isValid r.path)

include htime hnew

theorem paths_register :
    (t.apply (.register r)).paths = t.paths ++ [r.row time (t.lastId + 1)] := by
  rw [apply_register_of_new htime hnew]
  rfl

theorem row?_register_of_ne (hq : q ≠ r.path) : (t.apply (.register r)).row? q = t.row? q := by
  have hother : [r.row time (t.lastId + 1)].find? (fun row ↦ row.path = q) = none :=
    List.find?_eq_none.2 fun row hrow ↦ by
      rw [List.mem_singleton.1 hrow, decide_eq_true_eq]
      exact Ne.symm hq
  rw [row?, paths_register htime hnew, List.find?_append, hother, Option.or_none, row?]

/-- Nothing was recorded of the number that a registration gives out. -/
theorem outputsOf_register (h : t.Linked made) (q : Text) :
    (t.apply (.register r)).outputsOf q = t.outputsOf q := by
  by_cases hq : q = r.path
  · have hbefore : t.id? q = none := id?_eq_none_iff.2 (hq ▸ hnew)
    have hlinked : (t.apply (.register r)).Linked fun _ ↦ True :=
      (h.mono fun _ _ ↦ trivial).apply trivial
    have hafter := hlinked.id?_eq_some_iff.2 (hq ▸ holds_register htime hnew)
    have hnone : t.outputs.filter (fun o ↦ o.drv = t.lastId + 1) = [] :=
      List.filter_eq_nil_iff.2 fun o ho hdrv ↦ by
        obtain ⟨drv, hholds, -⟩ := h.recorded o ho
        exact h.not_holds_next (of_decide_eq_true hdrv ▸ hholds)
    rw [outputsOf, outputsOf, hbefore, hafter]
    simp only [outputs_register, hnone, List.mergeSort_nil, List.map_nil]
  · have hid : (t.apply (.register r)).id? q = t.id? q := by
      rw [id?, row?_register_of_ne htime hnew hq, id?]
    rw [outputsOf, hid, outputs_register, outputsOf]

/-! ## References -/

theorem refers_register_iff (h : t.Linked fun _ ↦ True) (hq : q ≠ r.path) :
    (t.apply (.register r)).Refers p q ↔
      t.Refers p q ∨ p = r.path ∧ t.isValid q ∧ q ∈ r.references := by
  have hlinked : (t.apply (.register r)).Linked fun _ ↦ True := h.apply trivial
  by_cases hp : p = r.path
  · subst hp
    rw [← hlinked.mem_referencesOf (holds_register htime hnew), (recall_apply h htime hnew).2,
      List.mem_filter, Bool.or_eq_true, decide_eq_true_eq, or_iff_left hq,
      or_iff_right fun hrefers ↦ hnew hrefers.isValid.1]
    exact and_comm.trans (and_iff_right rfl).symm
  · rw [or_iff_left fun hnext ↦ hp hnext.1]
    by_cases hvalid : t.isValid p
    · exact (growsTo_apply h _).refers_iff h hlinked hvalid
    · -- neither before nor after is there a row to refer from
      refine iff_of_false (fun hrefers ↦ ?_) fun hrefers ↦ hvalid hrefers.isValid.1
      rcases isValid_apply.1 hrefers.isValid.1 with hbefore | ⟨r', hr', hpath, -⟩
      · exact hvalid hbefore
      · obtain rfl := Statement.register.inj hr'
        exact hp hpath.symm

theorem referrersOf_register (h : t.Linked fun _ ↦ True) (hkeyed : t.Keyed) (hq : q ≠ r.path) :
    (t.apply (.register r)).referrersOf q =
      if t.isValid q ∧ q ∈ r.references then insertSorted r.path (t.referrersOf q)
      else t.referrersOf q := by
  have hlinked : (t.apply (.register r)).Linked fun _ ↦ True := h.apply trivial
  have hbefore := pairwise_referrersOf h hkeyed q
  have hafter := pairwise_referrersOf hlinked (hkeyed.apply h _) q
  split
  · next hlisted =>
    refine hafter.eq_of_mem_iff (pairwise_insertSorted r.path hbefore) fun p ↦ ?_
    rw [hlinked.mem_referrersOf, refers_register_iff htime hnew h hq, mem_insertSorted,
      h.mem_referrersOf, and_iff_left hlisted, or_comm]
  · next hnot =>
    refine hafter.eq_of_mem_iff hbefore fun p ↦ ?_
    rw [hlinked.mem_referrersOf, refers_register_iff htime hnew h hq, h.mem_referrersOf,
      or_iff_left fun hnext ↦ hnot hnext.2]

end

end Tables

namespace Database

/-- A registration breaks off, or fails since its path is valid, or is one more statement of the
history. -/
theorem register_after (history : List Statement) (r : Registration) :
    (r.time? = none ∧
      ∃ message, (Database.after history).register .readWrite r = .error (.panicked message)) ∨
    (∃ time, r.time? = some time ∧ (Tables.after history).isValid r.path ∧
      (Database.after history).register .readWrite r
        = .error (.error (.database (.unique "ValidPaths" "path")))) ∨
    ∃ time, r.time? = some time ∧ ¬(Tables.after history).isValid r.path ∧
      (Database.after history).register .readWrite r
        = .ok ((Tables.after history).lastId + 1, Database.after (history ++ [.register r])) := by
  rw [register]
  cases htime : r.time? with
  | none => exact .inl ⟨rfl, _, rfl⟩
  | some time =>
    rw [after_eq, after_eq, Tables.after_append, List.foldl_cons, List.foldl_nil]
    simp only [enter, require, Access.mayWrite, Tables.register_eq, bind, Except.bind]
    by_cases hvalid : (Tables.after history).isValid r.path
    · refine .inr (.inl ⟨time, rfl, hvalid, ?_⟩)
      simp only [if_pos hvalid, List.not_mem_nil, if_false]
      rfl
    · refine .inr (.inr ⟨time, rfl, hvalid, ?_⟩)
      rw [Tables.apply_register_of_new htime hvalid]
      simp only [if_neg hvalid, List.not_mem_nil, if_false]
      split <;> rfl

/-! ### Which way it ends -/

section

variable {history : List Statement} {r : Registration}

theorem exists_panicked_iff :
    (∃ message, (Database.after history).register .readWrite r = .error (.panicked message)) ↔
      r.registrationTime = .earliest := by
  rw [← Moment.toUnix?_eq_none_iff, ← Registration.time?]
  obtain ⟨htime, message, h⟩ | ⟨time, htime, -, h⟩ | ⟨time, htime, -, h⟩ :=
    register_after history r <;> simp [*]

theorem exists_error_iff :
    (∃ cause, (Database.after history).register .readWrite r = .error (.error cause)) ↔
      r.registrationTime ≠ .earliest ∧ Registered history r.path := by
  rw [ne_eq, ← Moment.toUnix?_eq_none_iff, ← Registration.time?, ← Tables.isValid_after]
  obtain ⟨htime, message, h⟩ | ⟨time, htime, hvalid, h⟩ | ⟨time, htime, hvalid, h⟩ :=
    register_after history r <;> simp [*]

/-- A registration succeeds exactly if it has seconds and is the first one of its path. -/
theorem exists_register_iff :
    (∃ result, (Database.after history).register .readWrite r = .ok result) ↔
      (∃ time, r.time? = some time) ∧ ¬Registered history r.path := by
  rw [← Tables.isValid_after]
  obtain ⟨htime, message, h⟩ | ⟨time, htime, hvalid, h⟩ | ⟨time, htime, hvalid, h⟩ :=
    register_after history r <;> simp [*]

end

/-! ### What it changes -/

/-- What a registration changes of the answers about other paths. -/
structure Adds (r : Registration) (db db' : Database) : Prop where
  registered : db'.isValid r.path = .ok true
  isValid : ∀ q ≠ r.path, db'.isValid q = db.isValid q
  record : ∀ q ≠ r.path, db'.record? q = db.record? q
  references : ∀ q record, db.record? q = .ok (some record) →
    db'.references record.id = db.references record.id
  outputs : ∀ q, db'.outputs q = db.outputs q
  derivers : ∀ q, db'.derivers q = db.derivers q
  unlisted : ∀ q ≠ r.path, ¬(db.isValid q = .ok true ∧ q ∈ r.references) →
    db'.referrers q = db.referrers q
  /-- A valid path that is listed gets one more referrer, in its place in the order of bytes. -/
  listed : ∀ q ≠ r.path, db.isValid q = .ok true → q ∈ r.references →
    ∃ below above, db.referrers q = .ok (below ++ above) ∧
      db'.referrers q = .ok (below ++ r.path :: above) ∧
      ((below ++ r.path :: above).map Text.utf8).Pairwise (· < ·)

open Tables in
theorem adds_register {history : List Statement} {r : Registration} {time : Int64}
    (htime : r.time? = some time) (hnew : ¬(Tables.after history).isValid r.path) :
    Adds r (Database.after history) (Database.after (history ++ [.register r])) := by
  have h : (Tables.after history).Linked fun _ ↦ True :=
    (linked_after history).mono fun _ _ ↦ trivial
  have hkeyed := keyed_after history
  rw [after_eq, after_eq, Tables.after_append, List.foldl_cons, List.foldl_nil]
  constructor
  case registered => exact congrArg Except.ok (holds_register htime hnew).isValid
  case isValid =>
    intro q hq
    exact congrArg (Except.ok ∘ Option.isSome) (row?_register_of_ne htime hnew hq)
  case record =>
    intro q hq
    rw [record?, record?, row?_register_of_ne htime hnew hq]
    rfl
  case references =>
    intro q record hrecord
    rw [references_eq, references_eq,
      (growsTo_apply h _).referencesOf_eq h (h.holds_of_record? hrecord)]
  case outputs => exact fun q ↦ congrArg Except.ok (outputsOf_register htime hnew h q)
  case derivers => exact fun q ↦ congrArg Except.ok (deriversOf_register h q)
  case unlisted =>
    intro q hq hnot
    refine congrArg Except.ok ((referrersOf_register htime hnew h hkeyed hq).trans (if_neg ?_))
    exact fun hlisted ↦ hnot ⟨congrArg Except.ok hlisted.1, hlisted.2⟩
  case listed =>
    intro q hq hvalid hmem
    have hafter := (referrersOf_register htime hnew h hkeyed hq).trans
      (if_pos ⟨Except.ok.inj hvalid, hmem⟩)
    have hfirst : r.path ∉ (Tables.after history).referrersOf q := fun hrefers ↦
      hnew (h.mem_referrersOf.1 hrefers).isValid.1
    obtain ⟨below, above, hsplit, hinsert⟩ := exists_insertSorted hfirst
    rw [hinsert] at hafter
    refine ⟨below, above, congrArg Except.ok hsplit, congrArg Except.ok hafter, ?_⟩
    rw [← hafter]
    exact Text.pairwise_utf8 (pairwise_referrersOf (h.apply trivial) (hkeyed.apply h _) q)

theorem lt_lastId_after {before later : List Statement} {r : Registration} {time : Int64}
    (htime : r.time? = some time) (hnew : ¬(Tables.after before).isValid r.path) :
    (Tables.after before).lastId < (Tables.after (before ++ .register r :: later)).lastId := by
  have hgrow := Tables.growsTo_after (before ++ [.register r]) later
  rw [List.append_assoc, List.singleton_append, Tables.after_append] at hgrow
  obtain ⟨row, hrow, hid, -⟩ := hgrow.holds (Tables.holds_register htime hnew)
  have hle := (Tables.linked_after _).id_le row hrow
  rwa [hid] at hle

/-- A registration that does not succeed might as well not have been tried. -/
theorem after_of_register_error {history : List Statement} {r : Registration} {fault : Fault}
    (h : (Database.after history).register .readWrite r = .error fault) (later : List Statement) :
    Database.after (history ++ .register r :: later) = Database.after (history ++ later) := by
  have hsame : Database.apply (Database.after history) (.register r) = Database.after history := by
    rw [Database.apply, h]
  rw [Database.after, List.foldl_append, List.foldl_cons, Database.after, List.foldl_append]
  exact congrArg (later.foldl Database.apply) hsame

theorem id_le_lastId {before later : List Statement} {r : Registration} {id : Nat} {db : Database}
    (h : (Database.after before).register .readWrite r = .ok (id, db)) :
    id ≤ (Tables.after (before ++ .register r :: later)).lastId := by
  obtain ⟨-, message, hregister⟩ | ⟨time, -, -, hregister⟩ | ⟨time, htime, hnew, hregister⟩ :=
    register_after before r
  · cases hregister.symm.trans h
  · cases hregister.symm.trans h
  · obtain ⟨rfl, -⟩ := Prod.mk.inj (Except.ok.inj (hregister.symm.trans h))
    exact lt_lastId_after htime hnew

/-- **A registration is done as a whole or not at all, and touches only its own record.** It breaks
off exactly at the earliest moment, and at any other one it fails exactly if its path was registered
before. Then everything that is done later, and every number that is given out later, is as if it
had not been tried. If it succeeds, its number is greater than every number given out before, and of
other paths only the referrers change, namely of those that are valid and listed. -/
theorem registration_frames (history : List Statement) (r : Registration) :
    ((∃ message, (Database.after history).register .readWrite r = .error (.panicked message)) ↔
      r.registrationTime = .earliest) ∧
    ((∃ cause, (Database.after history).register .readWrite r = .error (.error cause)) ↔
      r.registrationTime ≠ .earliest ∧ Registered history r.path) ∧
    (∀ fault, (Database.after history).register .readWrite r = .error fault →
      (∀ cause, fault = .error cause → cause = .database (.unique "ValidPaths" "path")) ∧
      ∀ later, Database.after (history ++ .register r :: later)
        = Database.after (history ++ later)) ∧
    ∀ id db, (Database.after history).register .readWrite r = .ok (id, db) →
      db = Database.after (history ++ [.register r]) ∧ Adds r (Database.after history) db ∧
      ∀ before r' later id' db', history = before ++ .register r' :: later →
        (Database.after before).register .readWrite r' = .ok (id', db') → id' < id := by
  refine ⟨exists_panicked_iff, exists_error_iff, fun fault hfault ↦
    ⟨?_, after_of_register_error hfault⟩, fun id db hok ↦ ?_⟩
  · rintro cause rfl
    obtain ⟨-, message, h⟩ | ⟨time, -, -, h⟩ | ⟨time, -, -, h⟩ := register_after history r
    all_goals cases h.symm.trans hfault
    rfl
  · obtain ⟨-, message, h⟩ | ⟨time, -, -, h⟩ | ⟨time, htime, hnew, h⟩ := register_after history r
    · cases h.symm.trans hok
    · cases h.symm.trans hok
    · obtain ⟨rfl, rfl⟩ := Prod.mk.inj (Except.ok.inj (h.symm.trans hok))
      refine ⟨rfl, adds_register htime hnew, fun before r' later id' db' hhistory hearlier ↦ ?_⟩
      rw [hhistory]
      exact Nat.lt_succ_of_le (id_le_lastId hearlier)

/-- A path that was never registered, and whose registration fails all the same. -/
theorem not_registered_at_earliest :
    ¬Registered [] (text "/nix/store/x") ∧
      (Database.after []).register .readWrite
          { Registration.plain (text "/nix/store/x") none .empty with
            registrationTime := .earliest }
        = .error (.panicked (some (text "attempt to negate with overflow"))) := by
  refine ⟨?_, rfl⟩
  rintro ⟨r, hr, -⟩
  exact List.not_mem_nil hr

end Database

end NixStore
