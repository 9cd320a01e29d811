import Mathlib.Data.List.Induction
import NixStore.Proofs.Database.Growth
import NixStore.Proofs.Database.Sorting
import NixStore.Proofs.Text.Order

/-!
# Answers that agree with each other

Two questions that look at the same rows from their two ends agree: a path is among the references
of another one exactly if that one is among its referrers, and an output of a derivation exactly if
that derivation is among its derivers. All paths that these answers name as references, referrers
or derivers are valid.

References and referrers increase strictly. This needs that no two rows of a table have the same
key, which a statement could break only by adding a key that is there: a registration adds
references of a number that is new, to numbers of different paths, and an output replaces the one
with its key. For the same reason the output of a derivation under a name is the one recorded last,
if the derivation was valid by then.
-/

namespace NixStore

/-- The last output recorded under a name for a derivation that was registered by then. -/
def Recorded (history : List Statement) (drv name p : Text) : Prop :=
  ∃ before later, history = before ++ .registerOutput drv name p :: later ∧
    Registered before drv ∧ ∀ p', .registerOutput drv name p' ∉ later

theorem recorded_concat {history : List Statement} {statement : Statement} {drv name p : Text} :
    Recorded (history ++ [statement]) drv name p ↔
      (statement = .registerOutput drv name p ∧ Registered history drv) ∨
      (Recorded history drv name p ∧ ∀ p', statement ≠ .registerOutput drv name p') := by
  constructor
  · rintro ⟨before, later, hhistory, hdrv, hlast⟩
    rcases List.eq_nil_or_concat later with rfl | ⟨rest, last, rfl⟩
    · obtain ⟨rfl, rfl⟩ := List.append_singleton_inj.1 hhistory
      exact .inl ⟨rfl, hdrv⟩
    · rw [List.concat_eq_append] at hhistory hlast
      rw [← List.cons_append, ← List.append_assoc] at hhistory
      obtain ⟨rfl, rfl⟩ := List.append_singleton_inj.1 hhistory
      refine .inr ⟨⟨before, rest, rfl, hdrv, fun p' hp' ↦ ?_⟩, fun p' hp' ↦ ?_⟩
      · exact hlast p' (List.mem_append_left _ hp')
      · exact hlast p' (hp' ▸ List.mem_append_right _ List.mem_cons_self)
  · rintro (⟨rfl, hdrv⟩ | ⟨⟨before, later, rfl, hdrv, hlast⟩, hother⟩)
    · exact ⟨history, [], rfl, hdrv, fun _ ↦ List.not_mem_nil⟩
    · refine ⟨before, later ++ [statement], ?_, hdrv, fun p' hp' ↦ ?_⟩
      · rw [List.append_assoc, List.cons_append]
      · rcases List.mem_append.1 hp' with hp' | hp'
        · exact hlast p' hp'
        · exact hother p' (List.mem_singleton.1 hp').symm

namespace Tables

variable {made : Statement → Prop} {t : Tables} {id : Nat} {p q drv name : Text}

/-! ## Keys -/

/-- No two rows of the references or of the outputs have the same key. -/
structure Keyed (t : Tables) : Prop where
  references : t.references.Nodup
  outputs : (t.outputs.map fun o ↦ (o.drv, o.id)).Nodup

theorem keyed_empty : Tables.empty.Keyed := ⟨List.nodup_nil, List.nodup_nil⟩

theorem nodup_newReferences (h : t.Linked made) {referrer : Nat} {references : List Text}
    (hnodup : references.Nodup) : (t.newReferences referrer references).Nodup := by
  refine List.pairwise_filterMap.2 (List.Pairwise.imp ?_ hnodup)
  rintro p q hpq x hx y hy rfl
  obtain ⟨k, hp, rfl⟩ := Option.map_eq_some_iff.1 hx
  obtain ⟨l, hq, hlk⟩ := Option.map_eq_some_iff.1 hy
  obtain rfl : l = k := (Reference.mk.inj hlk).2
  exact hpq (h.path_unique (h.id?_eq_some_iff.1 hp) (h.id?_eq_some_iff.1 hq))

theorem Keyed.apply (hkeyed : t.Keyed) (h : t.Linked fun _ ↦ True) (statement : Statement) :
    (t.apply statement).Keyed := by
  cases statement with
  | registerOutput drv name path =>
    rw [Tables.apply, registerOutput]
    cases t.id? drv with
    | none => exact hkeyed
    | some id =>
      refine ⟨hkeyed.references, ?_⟩
      rw [List.map_append, List.nodup_append]
      refine ⟨?_, List.pairwise_singleton _ _, fun k hk l hl ↦ ?_⟩
      · exact List.pairwise_map.2 ((List.pairwise_map.1 hkeyed.outputs).filter _)
      · obtain ⟨o, ho, rfl⟩ := List.mem_map.1 hk
        obtain rfl := List.mem_singleton.1 hl
        rintro hsame
        exact of_decide_eq_true (List.mem_filter.1 ho).2 (Prod.mk.inj hsame)
  | register r =>
    obtain ⟨-, heq⟩ | ⟨time, htime, hnew, heq⟩ := t.apply_register r
    · rwa [heq]
    · rw [heq]
      refine ⟨List.nodup_append.2 ⟨hkeyed.references, ?_, fun x hx y hy hxy ↦ ?_⟩, hkeyed.outputs⟩
      · exact nodup_newReferences (h.withRow trivial htime hnew) r.references.nodup
      · -- the references that are there come from numbers that are there
        obtain ⟨q, -, hq⟩ := List.mem_filterMap.1 hy
        obtain ⟨k, -, rfl⟩ := Option.map_eq_some_iff.1 hq
        obtain ⟨⟨p, hp⟩, -⟩ := h.ends x hx
        exact h.not_holds_next (hxy ▸ hp)

theorem keyed_after (history : List Statement) : (after history).Keyed := by
  induction history using List.reverseRecOn with
  | nil => exact keyed_empty
  | append_singleton history statement ih =>
    rw [after_append]
    exact ih.apply ((linked_after history).mono fun _ _ ↦ trivial) statement

/-! ## Order -/

theorem Linked.nodup_paths (h : t.Linked made) {α : Type} {number : α → Nat} {rows : List α}
    (hrows : rows.Pairwise fun x y ↦ number x ≠ number y) :
    (rows.filterMap fun x ↦ t.path? (number x)).Nodup := by
  refine List.pairwise_filterMap.2 (hrows.imp ?_)
  rintro x y hxy p hp q hq rfl
  exact hxy (h.id_unique (h.path?_eq_some_iff.1 hp) (h.path?_eq_some_iff.1 hq))

theorem eq_of_ends {x y : Reference} (hreferrer : x.referrer = y.referrer)
    (hreference : x.reference = y.reference) : x = y := by
  cases x
  cases y
  cases hreferrer
  cases hreference
  rfl

theorem pairwise_referencesOf (h : t.Linked made) (hkeyed : t.Keyed) (id : Nat) :
    (t.referencesOf id).Pairwise (· < ·) := by
  refine pairwise_lt_sortTexts (h.nodup_paths ?_)
  refine (List.Pairwise.and_mem.1 (hkeyed.references.filter _)).imp ?_
  rintro x y ⟨hx, hy, hxy⟩ hreference
  have hx := of_decide_eq_true (List.mem_filter.1 hx).2
  have hy := of_decide_eq_true (List.mem_filter.1 hy).2
  exact hxy (eq_of_ends (hx.trans hy.symm) hreference)

theorem pairwise_referrersOf (h : t.Linked made) (hkeyed : t.Keyed) (p : Text) :
    (t.referrersOf p).Pairwise (· < ·) := by
  rw [referrersOf]
  cases t.id? p with
  | none => exact List.Pairwise.nil
  | some id =>
    refine pairwise_lt_sortTexts (h.nodup_paths ?_)
    refine (List.Pairwise.and_mem.1 (hkeyed.references.filter _)).imp ?_
    rintro x y ⟨hx, hy, hxy⟩ hreferrer
    have hx := of_decide_eq_true (List.mem_filter.1 hx).2
    have hy := of_decide_eq_true (List.mem_filter.1 hy).2
    exact hxy (eq_of_ends hreferrer (hx.trans hy.symm))

/-! ## Outputs by name -/

/-- A derivation has a path as its output under a name. -/
def MakesAs (t : Tables) (drv name p : Text) : Prop :=
  ∃ o ∈ t.outputs, t.Holds o.drv drv ∧ o.id = name ∧ o.path = p

theorem makes_iff : t.Makes drv p ↔ ∃ name, t.MakesAs drv name p := by
  constructor
  · rintro ⟨o, ho, hdrv, hp⟩
    exact ⟨o.id, o, ho, hdrv, rfl, hp⟩
  · rintro ⟨name, o, ho, hdrv, -, hp⟩
    exact ⟨o, ho, hdrv, hp⟩

/-- The outputs of a derivation are listed by their names, which are all different. -/
theorem exists_outputsOf (h : t.Linked made) (hkeyed : t.Keyed) (drv : Text) :
    ∃ os : List (Text × Text), t.outputsOf drv = os.map (·.2) ∧
      os.Pairwise (fun a b ↦ a.1 < b.1) ∧ ∀ name p, (name, p) ∈ os ↔ t.MakesAs drv name p := by
  rw [outputsOf]
  cases hid : t.id? drv with
  | none =>
    refine ⟨[], rfl, List.Pairwise.nil, fun name p ↦ ⟨fun hp ↦ absurd hp List.not_mem_nil, ?_⟩⟩
    rintro ⟨o, -, hdrv, -⟩
    rw [h.id?_eq_some_iff.2 hdrv] at hid
    cases hid
  | some id =>
    have hdrv := h.id?_eq_some_iff.1 hid
    let rows := t.outputs.filter fun o ↦ o.drv = id
    let sorted := rows.mergeSort fun a b ↦ mayPrecede a.id b.id
    have hperm : sorted.Perm rows := List.mergeSort_perm _ _
    have hmem : ∀ o, o ∈ sorted ↔ o ∈ t.outputs ∧ o.drv = id := fun o ↦ by
      rw [hperm.mem_iff, List.mem_filter, decide_eq_true_eq]
    refine ⟨sorted.map fun o ↦ (o.id, o.path), ?_, ?_, fun name p ↦ ?_⟩
    · rw [List.map_map]
      rfl
    · have hsorted : sorted.Pairwise fun a b ↦ mayPrecede a.id b.id :=
        List.pairwise_mergeSort (fun a b c ↦ mayPrecede_trans a.id b.id c.id)
          (fun a b ↦ mayPrecede_total a.id b.id) rows
      have hkeys : sorted.Pairwise fun a b ↦ (a.drv, a.id) ≠ (b.drv, b.id) :=
        (hperm.pairwise_iff Ne.symm).2 ((List.pairwise_map.1 hkeyed.outputs).filter _)
      refine List.pairwise_map.2 ((List.Pairwise.and_mem.1 (hsorted.and hkeys)).imp ?_)
      rintro a b ⟨ha, hb, hab, hne⟩
      refine lt_of_mayPrecede hab fun (hname : a.id = b.id) ↦ hne ?_
      rw [((hmem a).1 ha).2, ((hmem b).1 hb).2, hname]
    · rw [List.mem_map]
      constructor
      · rintro ⟨o, ho, heq⟩
        obtain ⟨hout, hid⟩ := (hmem o).1 ho
        obtain ⟨hname, hp⟩ := Prod.mk.inj heq
        exact ⟨o, hout, hid ▸ hdrv, hname, hp⟩
      · rintro ⟨o, ho, hdrv', rfl, rfl⟩
        exact ⟨o, (hmem o).2 ⟨ho, h.id_unique hdrv' hdrv⟩, rfl⟩

theorem makesAs_register (h : t.Linked fun _ ↦ True) (r : Registration) :
    (t.apply (.register r)).MakesAs drv name p ↔ t.MakesAs drv name p := by
  have hgrow := growsTo_apply h (.register r)
  have hlinked : (t.apply (.register r)).Linked fun _ ↦ True := h.apply trivial
  constructor
  · rintro ⟨o, ho, hdrv, hrest⟩
    rw [outputs_register] at ho
    obtain ⟨drv', hdrv', -⟩ := h.recorded o ho
    rw [hlinked.path_unique hdrv (hgrow.holds hdrv')]
    exact ⟨o, ho, hdrv', hrest⟩
  · rintro ⟨o, ho, hdrv, hrest⟩
    exact ⟨o, outputs_register.symm ▸ ho, hgrow.holds hdrv, hrest⟩

/-- An output of a valid derivation takes the place of the one with its name. -/
theorem makesAs_registerOutput (h : t.Linked made) {drv' name' p' : Text}
    (hid : t.Holds id drv') : (t.registerOutput drv' name' p').MakesAs drv name p ↔
      (drv' = drv ∧ name' = name ∧ p' = p) ∨
      (t.MakesAs drv name p ∧ ¬(drv' = drv ∧ name' = name)) := by
  rw [registerOutput, h.id?_eq_some_iff.2 hid]
  constructor
  · rintro ⟨o, ho, hdrv, rfl, rfl⟩
    rcases List.mem_append.1 ho with ho | ho
    · obtain ⟨ho, hother⟩ := List.mem_filter.1 ho
      refine .inr ⟨⟨o, ho, hdrv, rfl, rfl⟩, ?_⟩
      rintro ⟨rfl, rfl⟩
      exact of_decide_eq_true hother ⟨h.id_unique hdrv hid, rfl⟩
    · obtain rfl := List.mem_singleton.1 ho
      exact .inl ⟨h.path_unique hid hdrv, rfl, rfl⟩
  · rintro (⟨rfl, rfl, rfl⟩ | ⟨⟨o, ho, hdrv, rfl, rfl⟩, hother⟩)
    · exact ⟨_, List.mem_append_right _ List.mem_cons_self, hid, rfl, rfl⟩
    · refine ⟨o, List.mem_append_left _ (List.mem_filter.2 ⟨ho, decide_eq_true ?_⟩), hdrv, rfl, rfl⟩
      rintro ⟨hsame, hname⟩
      exact hother ⟨h.path_unique (hsame ▸ hid) hdrv, hname.symm⟩

/-- A statement replaces the output that it names, if the derivation is valid, and keeps all
others. -/
theorem makesAs_apply (h : t.Linked fun _ ↦ True) (statement : Statement) :
    (t.apply statement).MakesAs drv name p ↔
      (statement = .registerOutput drv name p ∧ t.isValid drv) ∨
      (t.MakesAs drv name p ∧ ∀ p', statement ≠ .registerOutput drv name p') := by
  cases statement with
  | register r =>
    rw [makesAs_register h]
    simp
  | registerOutput drv' name' p' =>
    by_cases hvalid : t.isValid drv'
    · obtain ⟨id, hid⟩ := isValid_iff.1 hvalid
      rw [apply, makesAs_registerOutput h hid]
      constructor
      · rintro (⟨rfl, rfl, rfl⟩ | ⟨hmakes, hother⟩)
        · exact .inl ⟨rfl, hvalid⟩
        · exact .inr ⟨hmakes, fun _ heq ↦ hother (by cases heq; exact ⟨rfl, rfl⟩)⟩
      · rintro (⟨heq, -⟩ | ⟨hmakes, hother⟩)
        · cases heq
          exact .inl ⟨rfl, rfl, rfl⟩
        · refine .inr ⟨hmakes, ?_⟩
          rintro ⟨rfl, rfl⟩
          exact hother p' rfl
    · -- nothing happens, and the derivation has no outputs
      rw [apply, registerOutput, id?_eq_none_iff.2 hvalid]
      constructor
      · intro hmakes
        refine .inr ⟨hmakes, fun p'' heq ↦ ?_⟩
        cases heq
        exact hvalid (makes_iff.2 ⟨_, hmakes⟩).isValid
      · rintro (⟨heq, hdrv⟩ | ⟨hmakes, -⟩)
        · cases heq
          exact absurd hdrv hvalid
        · exact hmakes

theorem makesAs_after {history : List Statement} :
    (after history).MakesAs drv name p ↔ Recorded history drv name p := by
  induction history using List.reverseRecOn with
  | nil =>
    constructor
    · rintro ⟨o, ho, -⟩
      exact absurd ho List.not_mem_nil
    · rintro ⟨before, later, hnil, -⟩
      exact absurd hnil.symm (List.append_ne_nil_of_right_ne_nil before (List.cons_ne_nil _ later))
  | append_singleton history statement ih =>
    rw [after_append, recorded_concat, ← ih, ← isValid_after]
    exact makesAs_apply ((linked_after history).mono fun _ _ ↦ trivial) statement

end Tables

/-! ## Answers -/

namespace Database

/-- Answers that agree with each other and with the statements that were made. -/
structure Consistent (db : Database) (history : List Statement) : Prop where
  /-- The valid paths are those with a record. -/
  record : ∀ p, ∃ record, db.record? p = .ok record ∧ db.isValid p = .ok record.isSome
  /-- What a path refers to is valid, and in order. -/
  references : ∀ p record, db.record? p = .ok (some record) →
    ∃ qs, db.references record.id = .ok qs ∧ (qs.map Text.utf8).Pairwise (· < ·) ∧
      ∀ q ∈ qs, db.isValid q = .ok true
  /-- What refers to a path is valid, and in order. -/
  referrers : ∀ q, ∃ ps, db.referrers q = .ok ps ∧ (ps.map Text.utf8).Pairwise (· < ·) ∧
    ∀ p ∈ ps, db.isValid p = .ok true
  /-- A path refers to another one exactly if it is among the referrers of that one. -/
  dual : ∀ p record qs q ps, db.record? p = .ok (some record) →
    db.references record.id = .ok qs → db.referrers q = .ok ps → (q ∈ qs ↔ p ∈ ps)
  /-- What has a path as an output is valid. -/
  derivers : ∀ p, ∃ drvs, db.derivers p = .ok drvs ∧ ∀ drv ∈ drvs, db.isValid drv = .ok true
  /-- The outputs of a derivation are those recorded last under their names, in the order of the
  names. -/
  outputs : ∀ drv, ∃ os : List (Text × Text), db.outputs drv = .ok (os.map (·.2)) ∧
    (os.map fun o ↦ Text.utf8 o.1).Pairwise (· < ·) ∧
    ∀ name p, (name, p) ∈ os ↔ Recorded history drv name p
  /-- A path is an output of a derivation exactly if that is among the derivers of the path. -/
  makes : ∀ drv ps p drvs, db.outputs drv = .ok ps → db.derivers p = .ok drvs →
    (p ∈ ps ↔ drv ∈ drvs)

end Database

namespace Tables

variable {made : Statement → Prop} {t : Tables} {p : Text}

theorem Linked.exists_record (h : t.Linked made) {row : PathRow} (hrow : t.row? p = some row) :
    ∃ record, row.read = .ok record ∧ record.id = row.id := by
  obtain ⟨r, time, -, -, heq⟩ := h.registered row (h.row?_eq_some_iff.1 hrow).1
  refine ⟨_, (congrArg PathRow.read heq).trans (r.read_row time row.id), rfl⟩

theorem Linked.holds_of_record? (h : t.Linked made) {record : PathRecord}
    (hrecord : Database.record? ⟨t, [], true⟩ p = .ok (some record)) : t.Holds record.id p := by
  cases hrow : t.row? p with
  | none =>
    rw [record?_of_none hrow] at hrecord
    cases hrecord
  | some row =>
    obtain ⟨record', hread, hid⟩ := h.exists_record hrow
    rw [record?_of_row? hrow, hread] at hrecord
    cases hrecord
    obtain ⟨hmem, hpath⟩ := h.row?_eq_some_iff.1 hrow
    exact ⟨row, hmem, hid.symm, hpath⟩

end Tables

namespace Database

open Tables in
/-- **Answers agree with each other** after any sequence of statements, and the outputs of a
derivation are what was recorded last. -/
theorem consistent_after (history : List Statement) :
    (Database.after history).Consistent history := by
  have h := linked_after history
  have hkeyed := keyed_after history
  have hvalid : ∀ {p}, (Tables.after history).isValid p →
      Database.isValid ⟨Tables.after history, [], true⟩ p = .ok true :=
    fun hp ↦ congrArg Except.ok hp
  rw [after_eq]
  constructor
  case record =>
    intro p
    cases hrow : (Tables.after history).row? p with
    | none => exact ⟨none, record?_of_none hrow, congrArg (Except.ok ∘ Option.isSome) hrow⟩
    | some row =>
      obtain ⟨record, hread, -⟩ := h.exists_record hrow
      refine ⟨some record, ?_, congrArg (Except.ok ∘ Option.isSome) hrow⟩
      rw [record?_of_row? hrow, hread]
      rfl
  case references =>
    intro p record hrecord
    refine ⟨_, references_eq _ _, Text.pairwise_utf8 (pairwise_referencesOf h hkeyed _), ?_⟩
    intro q hq
    exact hvalid ((h.mem_referencesOf (h.holds_of_record? hrecord)).1 hq).isValid.2
  case referrers =>
    intro q
    refine ⟨_, rfl, Text.pairwise_utf8 (pairwise_referrersOf h hkeyed q), ?_⟩
    exact fun p hp ↦ hvalid (h.mem_referrersOf.1 hp).isValid.1
  case dual =>
    intro p record qs q ps hrecord hqs hps
    rw [references_eq] at hqs
    cases hqs
    cases hps
    rw [h.mem_referencesOf (h.holds_of_record? hrecord), h.mem_referrersOf]
  case derivers =>
    intro p
    exact ⟨_, rfl, fun drv hdrv ↦ hvalid (h.mem_deriversOf.1 hdrv).isValid⟩
  case outputs =>
    intro drv
    obtain ⟨os, hos, hsorted, hmem⟩ := exists_outputsOf h hkeyed drv
    refine ⟨os, congrArg Except.ok hos, ?_, fun name p ↦ (hmem name p).trans makesAs_after⟩
    exact List.pairwise_map.2 (hsorted.imp Text.utf8_lt_utf8)
  case makes =>
    intro drv ps p drvs hps hdrvs
    cases hps
    cases hdrvs
    rw [h.mem_outputsOf, h.mem_deriversOf]

end Database

end NixStore
