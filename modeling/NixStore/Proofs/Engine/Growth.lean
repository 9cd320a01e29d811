import NixStore.Proofs.Database.Growth
import NixStore.Proofs.Engine.Registered

/-!
# Closures of a store that grows

If only references are followed, an edge of a store's graph is a reference in its tables, in one
direction or the other. A reference stays when more is registered, and no reference of a path that
is valid already is ever added. So what can be reached along references does not change any more
once its root is valid, and what can be reached along referrers only becomes more.
-/

namespace NixStore

/-- From one path to another in tables, along references or turned around. -/
def Tables.Leads (t : Tables) (flip : Bool) (p q : Text) : Prop :=
  if flip then t.Refers q p else t.Refers p q

theorem Tables.GrowsTo.leads {t t' : Tables} {p q : Text} (h : t.GrowsTo t') {flip : Bool}
    (hpq : t.Leads flip p q) : t'.Leads flip p q := by
  cases flip with
  | false => exact h.refers hpq
  | true => exact h.refers hpq

namespace Engine

variable {e e' : Engine Id} {policy : ClosurePolicy} {root p : StorePath}

/-- If edges from valid paths lead to valid paths and are also edges of another engine, what is
reached from a valid path is valid and reached with the other engine. -/
theorem Reachable.imp (valid : StorePath → Prop)
    (hedge : ∀ p q, valid p → e.Edge policy p q → valid q ∧ e'.Edge policy p q)
    (hroot : valid root) (h : e.Reachable policy root p) :
    valid p ∧ e'.Reachable policy root p := by
  obtain ⟨n, h⟩ := h
  induction h with
  | root => exact ⟨hroot, 0, .root⟩
  | @edge n p q _ next ih =>
    obtain ⟨hp, k, hreach⟩ := ih
    obtain ⟨hq, hnext⟩ := hedge p q hp next
    exact ⟨hq, k + 1, .edge hreach hnext⟩

end Engine

namespace LocalStore

open Engine (Answers)

variable {s : LocalStore} {history : List Statement} {disk : FileNode} {root p q : StorePath}

section

variable (h : ∀ statement ∈ history, statement.Parses s.storeDir)

include h

theorem edge_references_iff : (s.engineAfter history disk).Edge .references p q ↔
    (Tables.after history).Refers (s.storeDir.print p) (s.storeDir.print q) := by
  constructor
  · intro hedge
    cases hedge with
    | @reference record _ hrecord hmem =>
      by_cases hp : (Tables.after history).isValid (s.storeDir.print p)
      · obtain ⟨info, hinfo, hrefers, -⟩ := exists_pathInfo disk h hp
        obtain rfl := Option.some.inj (hinfo.unique hrecord)
        exact (hrefers q).1 hmem
      · have hnone : Answers ((s.engineAfter history disk).pathInfo p) none :=
          run_pathInfo_of_no_row (Option.not_isSome_iff_eq_none.1 hp)
        cases hnone.unique hrecord
    | output _ wanted | deriver _ wanted => cases wanted
    | referrer flipped | maker flipped | product flipped => cases flipped
  · intro hrefers
    obtain ⟨info, hinfo, hmem, -⟩ := exists_pathInfo disk h hrefers.isValid.1
    exact .reference rfl hinfo ((hmem q).2 hrefers)

theorem edge_referrers_iff : (s.engineAfter history disk).Edge .referrers p q ↔
    (Tables.after history).Refers (s.storeDir.print q) (s.storeDir.print p) := by
  obtain ⟨qs, hqs, hmem⟩ := exists_referrers disk h p
  rw [← hmem]
  constructor
  · intro hedge
    cases hedge with
    | referrer _ recorded member =>
      obtain rfl := hqs.unique recorded
      exact member
    | maker _ wanted | product _ wanted => cases wanted
    | reference forward | output forward | deriver forward => cases forward
  · exact fun hq ↦ .referrer rfl hqs hq

theorem edge_iff_leads (flip : Bool) : (s.engineAfter history disk).Edge ⟨flip, false, false⟩ p q ↔
    (Tables.after history).Leads flip (s.storeDir.print p) (s.storeDir.print q) := by
  cases flip with
  | false => exact edge_references_iff h
  | true => exact edge_referrers_iff h

theorem registered_of_reachable {policy : ClosurePolicy}
    (hroot : Registered history (s.storeDir.print root))
    (hreach : (s.engineAfter history disk).Reachable policy root p) :
    Registered history (s.storeDir.print p) := by
  have hanswers := answersFor_registered disk h
  exact (hreach.imp (fun p ↦ Registered history (s.storeDir.print p))
    (fun p q hp hedge ↦ ⟨hanswers.valid_of_edge hp hedge, hedge⟩) hroot).1

end

/-- The row of a path that was registered, and its references, ever after. -/
theorem exists_row_of_growth (hp : Registered history (s.storeDir.print p)) :
    ∃ (r : Registration) (time : Int64) (id : Nat), ∀ more,
      (Tables.after (history ++ more)).row? (s.storeDir.print p) = some (r.row time id) ∧
      (Tables.after (history ++ more)).referencesOf id
        = (Tables.after history).referencesOf id := by
  have hlinked := Tables.linked_after history
  obtain ⟨r, time, id, -, -, hrow, hholds⟩ :=
    hlinked.exists_registration (Tables.isValid_after.2 hp)
  refine ⟨r, time, id, fun more ↦ ?_⟩
  have hgrow := Tables.growsTo_after history more
  exact ⟨hgrow.row?_eq_some hrow, hgrow.referencesOf_eq hlinked hholds⟩

section

variable {more : List Statement}
  (h : ∀ statement ∈ history ++ more, statement.Parses s.storeDir)

include h

theorem edge_of_growth (flip : Bool)
    (hedge : (s.engineAfter history disk).Edge ⟨flip, false, false⟩ p q) :
    (s.engineAfter (history ++ more) disk).Edge ⟨flip, false, false⟩ p q := by
  have hbefore := (edge_iff_leads (fun x hx ↦ h x (List.mem_append_left _ hx)) flip).1 hedge
  exact (edge_iff_leads h flip).2 ((Tables.growsTo_after history more).leads hbefore)

theorem reachable_of_growth (flip : Bool)
    (hreach : (s.engineAfter history disk).Reachable ⟨flip, false, false⟩ root p) :
    (s.engineAfter (history ++ more) disk).Reachable ⟨flip, false, false⟩ root p :=
  (hreach.imp (fun _ ↦ True) (fun _ _ _ hedge ↦ ⟨trivial, edge_of_growth h flip hedge⟩) trivial).2

theorem reachable_references_of_growth (hroot : Registered history (s.storeDir.print root))
    (hreach : (s.engineAfter (history ++ more) disk).Reachable .references root p) :
    (s.engineAfter history disk).Reachable .references root p := by
  have hbefore : ∀ statement ∈ history, statement.Parses s.storeDir := fun x hx ↦
    h x (List.mem_append_left _ hx)
  refine (hreach.imp (fun p ↦ Registered history (s.storeDir.print p)) (fun p q hp hedge ↦ ?_)
    hroot).2
  have hrefers := ((Tables.growsTo_after history more).refers_iff (Tables.linked_after history)
    (Tables.linked_after _) (Tables.isValid_after.2 hp)).1 ((edge_references_iff h).1 hedge)
  exact ⟨Tables.isValid_after.1 hrefers.isValid.2, (edge_references_iff hbefore).2 hrefers⟩

end

end LocalStore

end NixStore
