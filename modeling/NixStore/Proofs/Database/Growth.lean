import Mathlib.Data.List.Basic
import NixStore.Proofs.Database.Linked

/-!
# Tables only grow

A statement adds rows to the valid paths behind those that are there, and references that all come
from a row it added; outputs may be replaced, but nothing else is. So what is known of a path that
is valid stays as it is, its row with its number, and the list of what it refers to, whatever is
registered later. What refers to it may only become more.
-/

namespace NixStore.Tables

variable {made : Statement → Prop} {t t' t'' : Tables} {id : Nat} {p q : Text}

/-- The valid paths of some tables are the first of others, and no reference was added to them. -/
structure GrowsTo (t t' : Tables) : Prop where
  paths : t.paths <+: t'.paths
  references : ∃ new, t'.references = t.references ++ new ∧
    ∀ x ∈ new, ∀ row ∈ t.paths, row.id ≠ x.referrer

namespace GrowsTo

theorem refl (t : Tables) : t.GrowsTo t :=
  ⟨List.prefix_rfl, [], (List.append_nil _).symm, List.forall_mem_nil _⟩

theorem trans (h : t.GrowsTo t') (h' : t'.GrowsTo t'') : t.GrowsTo t'' := by
  obtain ⟨new, hnew, hrows⟩ := h.references
  obtain ⟨new', hnew', hrows'⟩ := h'.references
  refine ⟨h.paths.trans h'.paths, new ++ new', ?_, fun x hx row hrow ↦ ?_⟩
  · rw [hnew', hnew, List.append_assoc]
  · rcases List.mem_append.1 hx with hx | hx
    · exact hrows x hx row hrow
    · exact hrows' x hx row (h.paths.subset hrow)

/-! ## What stays -/

variable (h : t.GrowsTo t')

include h

theorem holds (hp : t.Holds id p) : t'.Holds id p := by
  obtain ⟨row, hrow, hid⟩ := hp
  exact ⟨row, h.paths.subset hrow, hid⟩

theorem isValid (hp : t.isValid p) : t'.isValid p := by
  obtain ⟨id, hid⟩ := isValid_iff.1 hp
  exact (h.holds hid).isValid

theorem refers (hpq : t.Refers p q) : t'.Refers p q := by
  obtain ⟨x, hx, hp, hq⟩ := hpq
  obtain ⟨new, hnew, -⟩ := h.references
  exact ⟨x, hnew ▸ List.mem_append_left new hx, h.holds hp, h.holds hq⟩

theorem row?_eq_some {row : PathRow} (hrow : t.row? p = some row) : t'.row? p = some row := by
  obtain ⟨more, hmore⟩ := h.paths
  rw [row?, ← hmore, List.find?_append, ← row?, hrow, Option.some_or]

theorem path?_eq_some (hp : t.path? id = some p) : t'.path? id = some p := by
  obtain ⟨row, hrow, hpath⟩ := Option.map_eq_some_iff.1 hp
  obtain ⟨more, hmore⟩ := h.paths
  rw [path?, ← hmore, List.find?_append, hrow, Option.some_or, Option.map_some, hpath]

/-- What a path refers to stays the same, since later references come from later rows. -/
theorem referencesOf_eq (hlinked : t.Linked made) (hp : t.Holds id p) :
    t'.referencesOf id = t.referencesOf id := by
  obtain ⟨row, hrow, hid, -⟩ := hp
  obtain ⟨new, hnew, hrows⟩ := h.references
  have hnone : new.filter (fun x ↦ x.referrer = id) = [] :=
    List.filter_eq_nil_iff.2 fun x hx hreferrer ↦
      hrows x hx row hrow (hid.trans (of_decide_eq_true hreferrer).symm)
  rw [referencesOf, hnew, List.filter_append, hnone, List.append_nil, referencesOf]
  refine congrArg sortTexts (List.filterMap_congr fun x hx ↦ ?_)
  obtain ⟨-, q, hq⟩ := hlinked.ends x (List.mem_filter.1 hx).1
  have hpath := hlinked.path?_eq_some_iff.2 hq
  rw [hpath, h.path?_eq_some hpath]

theorem refers_iff {made' : Statement → Prop} (hlinked : t.Linked made) (hlinked' : t'.Linked made')
    (hp : t.isValid p) : t'.Refers p q ↔ t.Refers p q := by
  obtain ⟨id, hid⟩ := isValid_iff.1 hp
  rw [← hlinked.mem_referencesOf hid, ← hlinked'.mem_referencesOf (h.holds hid),
    h.referencesOf_eq hlinked hid]

end GrowsTo

/-! ## Statements -/

theorem growsTo_apply (h : t.Linked made) (statement : Statement) :
    t.GrowsTo (t.apply statement) := by
  cases statement with
  | registerOutput drv name path =>
    rw [apply, registerOutput]
    cases t.id? drv with
    | none => exact .refl t
    | some id => exact ⟨List.prefix_rfl, [], (List.append_nil _).symm, List.forall_mem_nil _⟩
  | register r =>
    obtain ⟨-, heq⟩ | ⟨time, -, -, heq⟩ := t.apply_register r
    · rw [heq]
      exact .refl t
    · rw [heq]
      refine ⟨List.prefix_append _ _, _, rfl, fun x hx row hrow hid ↦ ?_⟩
      obtain ⟨q, -, hq⟩ := List.mem_filterMap.1 hx
      obtain ⟨k, -, rfl⟩ := Option.map_eq_some_iff.1 hq
      exact h.not_holds_next ⟨row, hrow, hid, rfl⟩

theorem growsTo_after (history more : List Statement) :
    (after history).GrowsTo (after (history ++ more)) := by
  induction more generalizing history with
  | nil =>
    rw [List.append_nil]
    exact .refl _
  | cons statement more ih =>
    have hstep := growsTo_apply (linked_after history) statement
    have hrest := ih (history ++ [statement])
    rw [after_append, List.append_assoc, List.singleton_append] at hrest
    exact hstep.trans hrest

end NixStore.Tables
