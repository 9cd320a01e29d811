import Mathlib.Data.List.Nodup
import Mathlib.Data.List.Sort
import NixStore.Proofs.Database.HashPart
import NixStore.Proofs.Database.Recall

/-!
# Statements in another order

The number of a row depends on when it was registered, and the order of the tables on the order of
the statements. If what a statement names is always registered before it, nothing else depends on
it: the path of a registration is valid in the end, it refers to those of its references that are
valid in the end, and an output stands for its derivation. So all answers but the numbers can be
told from the set of statements, and their order is that of texts.
-/

namespace NixStore

/-- What distinguishes statements: the path that is registered, or the name of the output. -/
def Statement.key : Statement → Text ⊕ (Text × Text)
  | .register r => .inl r.path
  | .registerOutput drv id _ => .inr (drv, id)

/-- A path that has to be registered before a statement. -/
def Statement.Needs : Statement → Text → Prop
  | .register r, full => full ∈ r.references ∧ full ≠ r.path
  | .registerOutput drv _ _, full => full = drv

/-- What a statement needs is registered before it, if it is registered at all. -/
def Ordered (history : List Statement) : Prop :=
  ∀ before statement later, history = before ++ statement :: later →
    ∀ full, statement.Needs full → Registered history full → Registered before full

namespace Tables

variable {history history' : List Statement} {p q drv name : Text}

/-! ## What the set of statements says -/

section

variable (hkeys : (history.map Statement.key).Nodup) (hordered : Ordered history)

include hkeys hordered

/-- Every registration leaves its row, which refers to those of its references that are valid in
the end. -/
theorem recall_of_ordered {r : Registration} {time : Int64} (hr : .register r ∈ history)
    (htime : r.time? = some time) :
    ∃ id, (after history).row? r.path = some (r.row time id) ∧ (after history).Holds id r.path ∧
      (after history).referencesOf id = r.references.toList.filter (after history).isValid := by
  obtain ⟨before, later, rfl⟩ := List.append_of_mem hr
  have hfirst : ¬Registered before r.path := by
    rintro ⟨r', hr', hpath, -⟩
    rw [List.map_append, List.nodup_append] at hkeys
    exact hkeys.2.2 _ (List.mem_map_of_mem hr') _ (List.mem_map_of_mem List.mem_cons_self)
      (congrArg Sum.inl hpath)
  obtain ⟨id, hrow, hholds, hreferences⟩ := recall_after before later htime hfirst
  refine ⟨id, hrow, hholds, hreferences.trans (List.filter_congr fun q hq ↦ Bool.eq_iff_iff.2 ?_)⟩
  rw [Bool.or_eq_true, decide_eq_true_eq, isValid_after, isValid_after]
  -- a reference that is valid in the end was needed, and so it was registered by then
  constructor
  · rintro (hbefore | rfl)
    · exact hbefore.mono (List.subset_append_left _ _)
    · exact ⟨r, hr, rfl, htime ▸ rfl⟩
  · intro hvalid
    by_cases hself : q = r.path
    · exact .inr hself
    · exact .inl (hordered before _ later rfl q ⟨hq, hself⟩ hvalid)

theorem refers_iff_of_ordered : (after history).Refers p q ↔
    Registered history q ∧
      ∃ r, .register r ∈ history ∧ r.path = p ∧ r.time?.isSome ∧ q ∈ r.references := by
  have hlinked := linked_after history
  have hmem : ∀ {r}, .register r ∈ history → r.time?.isSome →
      ((after history).Refers r.path q ↔ Registered history q ∧ q ∈ r.references) := by
    intro r hr hsome
    obtain ⟨time, htime⟩ := Option.isSome_iff_exists.1 hsome
    obtain ⟨id, -, hholds, hreferences⟩ := recall_of_ordered hkeys hordered hr htime
    rw [← hlinked.mem_referencesOf hholds, hreferences, List.mem_filter, isValid_after]
    exact and_comm
  constructor
  · intro hrefers
    obtain ⟨r, hr, rfl, htime⟩ := isValid_after.1 hrefers.isValid.1
    obtain ⟨hq, hlisted⟩ := (hmem hr htime).1 hrefers
    exact ⟨hq, r, hr, rfl, htime, hlisted⟩
  · rintro ⟨hq, r, hr, rfl, htime, hlisted⟩
    exact (hmem hr htime).2 ⟨hq, hlisted⟩

theorem makesAs_iff_of_ordered : (after history).MakesAs drv name p ↔
    Registered history drv ∧ .registerOutput drv name p ∈ history := by
  rw [makesAs_after]
  constructor
  · rintro ⟨before, later, rfl, hdrv, -⟩
    exact ⟨hdrv.mono (List.subset_append_left _ _),
      List.mem_append_right _ List.mem_cons_self⟩
  · rintro ⟨hdrv, hmem⟩
    obtain ⟨before, later, rfl⟩ := List.append_of_mem hmem
    refine ⟨before, later, rfl, hordered before _ later rfl drv rfl hdrv, fun p' hp' ↦ ?_⟩
    rw [List.map_append, List.map_cons, List.nodup_append, List.nodup_cons] at hkeys
    exact hkeys.2.1.1 (List.mem_map.2 ⟨_, hp', rfl⟩)

end

/-! ## Lists that are told by their members -/

/-- The derivations that have a path as an output, one for each of the names. -/
theorem exists_deriversOf {made : Statement → Prop} {t : Tables} (h : t.Linked made)
    (hkeyed : t.Keyed) (p : Text) :
    ∃ os : List (Text × Text), t.deriversOf p = sortTexts (os.map (·.1)) ∧ os.Nodup ∧
      ∀ drv name, (drv, name) ∈ os ↔ t.MakesAs drv name p := by
  refine ⟨(t.outputs.filter fun o ↦ o.path = p).filterMap fun o ↦
    (t.path? o.drv).map fun drv ↦ (drv, o.id), ?_, ?_, fun drv name ↦ ?_⟩
  · rw [deriversOf, List.map_filterMap]
    simp only [Option.map_map, Function.comp_def, Option.map_id']
  · refine List.pairwise_filterMap.2 (((List.pairwise_map.1 hkeyed.outputs).filter _).imp ?_)
    rintro o o' hne x hx y hy rfl
    obtain ⟨drv, hdrv, rfl⟩ := Option.map_eq_some_iff.1 hx
    obtain ⟨drv', hdrv', heq⟩ := Option.map_eq_some_iff.1 hy
    obtain ⟨rfl, hname⟩ := Prod.mk.inj heq
    have hid := h.id_unique (h.path?_eq_some_iff.1 hdrv) (h.path?_eq_some_iff.1 hdrv')
    exact hne (Prod.ext hid hname.symm)
  · simp only [List.mem_filterMap, List.mem_filter, decide_eq_true_eq, Option.map_eq_some_iff,
      h.path?_eq_some_iff, Prod.mk.injEq, MakesAs]
    constructor
    · rintro ⟨o, ⟨ho, hp⟩, _, hdrv, rfl, rfl⟩
      exact ⟨o, ho, hdrv, rfl, hp⟩
    · rintro ⟨o, ho, hdrv, rfl, rfl⟩
      exact ⟨o, ⟨ho, rfl⟩, drv, hdrv, rfl, rfl⟩

/-! ## Answers -/

/-- Tables that give the same answers, with numbers of their own. -/
structure Alike (t t' : Tables) : Prop where
  isValid : ∀ p, t.isValid p = t'.isValid p
  /-- A path that is valid has the row of the same registration, with the same references. -/
  row : ∀ p, t.isValid p → ∃ (r : Registration) (time : Int64) (id id' : Nat),
    t.row? p = some (r.row time id) ∧ t'.row? p = some (r.row time id') ∧
    t.referencesOf id = t'.referencesOf id'
  referrersOf : ∀ p, t.referrersOf p = t'.referrersOf p
  outputsOf : ∀ drv, t.outputsOf drv = t'.outputsOf drv
  deriversOf : ∀ p, t.deriversOf p = t'.deriversOf p
  startingWith? : ∀ start, t.startingWith? start = t'.startingWith? start

theorem alike_of_perm (hperm : history.Perm history') (hkeys : (history.map Statement.key).Nodup)
    (hordered : Ordered history) (hordered' : Ordered history') :
    (after history).Alike (after history') := by
  have hkeys' : (history'.map Statement.key).Nodup := (hperm.map _).nodup_iff.1 hkeys
  have hregistered : ∀ p, Registered history p ↔ Registered history' p := fun p ↦
    ⟨fun h ↦ h.mono hperm.subset, fun h ↦ h.mono hperm.symm.subset⟩
  have hvalid : (after history).isValid = (after history').isValid := by
    funext p
    rw [Bool.eq_iff_iff, isValid_after, isValid_after]
    exact hregistered p
  have hlinked := linked_after history
  have hlinked' := linked_after history'
  constructor
  case isValid => exact congrFun hvalid
  case row =>
    intro p hp
    obtain ⟨r, hr, rfl, hsome⟩ := isValid_after.1 hp
    obtain ⟨time, htime⟩ := Option.isSome_iff_exists.1 hsome
    obtain ⟨id, hrow, -, hreferences⟩ := recall_of_ordered hkeys hordered hr htime
    obtain ⟨id', hrow', -, hreferences'⟩ :=
      recall_of_ordered hkeys' hordered' (hperm.mem_iff.1 hr) htime
    refine ⟨r, time, id, id', hrow, hrow', ?_⟩
    rw [hreferences, hreferences', hvalid]
  case referrersOf =>
    intro p
    refine (pairwise_referrersOf hlinked (keyed_after history) p).eq_of_mem_iff
      (pairwise_referrersOf hlinked' (keyed_after history') p) fun q ↦ ?_
    rw [hlinked.mem_referrersOf, hlinked'.mem_referrersOf, refers_iff_of_ordered hkeys hordered,
      refers_iff_of_ordered hkeys' hordered', hregistered]
    simp only [hperm.mem_iff]
  case outputsOf =>
    intro drv
    obtain ⟨os, hos, hsorted, hmem⟩ := exists_outputsOf hlinked (keyed_after history) drv
    obtain ⟨os', hos', hsorted', hmem'⟩ := exists_outputsOf hlinked' (keyed_after history') drv
    have : Std.Asymm fun a b : Text × Text ↦ a.1 < b.1 := ⟨fun _ _ ↦ Std.Asymm.asymm _ _⟩
    rw [hos, hos', hsorted.eq_of_mem_iff hsorted' fun o ↦ ?_]
    rw [hmem, hmem', makesAs_iff_of_ordered hkeys hordered,
      makesAs_iff_of_ordered hkeys' hordered', hregistered, hperm.mem_iff]
  case deriversOf =>
    intro p
    obtain ⟨os, hos, hnodup, hmem⟩ := exists_deriversOf hlinked (keyed_after history) p
    obtain ⟨os', hos', hnodup', hmem'⟩ := exists_deriversOf hlinked' (keyed_after history') p
    have hsame : os.Perm os' := (List.perm_ext_iff_of_nodup hnodup hnodup').2 fun o ↦ by
      rw [hmem, hmem', makesAs_iff_of_ordered hkeys hordered,
        makesAs_iff_of_ordered hkeys' hordered', hregistered, hperm.mem_iff]
    rw [hos, hos', sortTexts_eq_of_perm (hsame.map _)]
  case startingWith? =>
    intro start
    have hleast : (after history).leastFrom? start = (after history').leastFrom? start :=
      Option.ext fun p ↦ by rw [leastFrom?_eq_some_iff, leastFrom?_eq_some_iff, hvalid]
    rw [startingWith?, startingWith?, hleast]

end Tables

end NixStore
