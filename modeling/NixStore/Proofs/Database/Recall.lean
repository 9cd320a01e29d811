import Mathlib.Data.List.Basic
import NixStore.Proofs.Database.Consistency

/-!
# What a registration leaves

The first registration of a path is the one that counts. The row that it leaves is found under the
path ever after, and so are its references: those of the paths listed which were valid then, or are
the path itself, in their order.
-/

namespace NixStore

namespace Tables

variable {made : Statement → Prop} {t : Tables} {r : Registration} {time : Int64}

/-- The references that a registration adds are to the paths that are valid. -/
theorem filterMap_newReferences (h : t.Linked made) (id : Nat) (references : List Text) :
    (t.newReferences id references).filterMap (fun x ↦ t.path? x.reference)
      = references.filter t.isValid := by
  rw [newReferences, List.filterMap_filterMap, ← List.filterMap_eq_filter]
  refine List.filterMap_congr fun q _ ↦ ?_
  cases hid : t.id? q with
  | none =>
    rw [Option.guard, if_neg (id?_eq_none_iff.1 hid)]
    rfl
  | some k =>
    have hq := h.id?_eq_some_iff.1 hid
    rw [Option.guard, if_pos hq.isValid]
    exact h.path?_eq_some_iff.2 hq

/-- The row that a registration adds, and what is referred to from it. -/
theorem recall_apply (h : t.Linked fun _ ↦ True) (htime : r.time? = some time)
    (hnew : ¬t.isValid r.path) :
    (t.apply (.register r)).row? r.path = some (r.row time (t.lastId + 1)) ∧
      (t.apply (.register r)).referencesOf (t.lastId + 1)
        = r.references.toList.filter fun q ↦ t.isValid q || q = r.path := by
  have hlinked := h.withRow trivial htime hnew
  rw [apply_register_of_new htime hnew]
  constructor
  · exact hlinked.row?_eq_some_iff.2 ⟨mem_paths_withRow.2 (.inr rfl), rfl⟩
  · let new := (t.withRow r time).newReferences (t.lastId + 1) r.references.toList
    have hold : t.references.filter (fun x ↦ x.referrer = t.lastId + 1) = [] := by
      refine List.filter_eq_nil_iff.2 fun x hx hreferrer ↦ ?_
      obtain ⟨⟨p, hp⟩, -⟩ := h.ends x hx
      exact h.not_holds_next (of_decide_eq_true hreferrer ▸ hp)
    have hadded : new.filter (fun x ↦ x.referrer = t.lastId + 1) = new := by
      refine List.filter_eq_self.2 fun x hx ↦ decide_eq_true ?_
      obtain ⟨q, -, hq⟩ := List.mem_filterMap.1 hx
      obtain ⟨k, -, rfl⟩ := Option.map_eq_some_iff.1 hq
      rfl
    change sortTexts (((t.references ++ new).filter _).filterMap
      fun x ↦ (t.withRow r time).path? x.reference) = _
    rw [List.filter_append, hold, hadded, List.nil_append, filterMap_newReferences hlinked,
      sortTexts_of_pairwise (r.references.sorted.filter _)]
    refine List.filter_congr fun q _ ↦ Bool.eq_iff_iff.2 ?_
    rw [isValid_withRow, Bool.or_eq_true, decide_eq_true_eq]
    exact or_congr_right eq_comm

/-- The row of a path and its references, at any time after it was registered. -/
theorem recall_after (before later : List Statement) (htime : r.time? = some time)
    (hfirst : ¬Registered before r.path) :
    ∃ id, (after (before ++ .register r :: later)).row? r.path = some (r.row time id) ∧
      (after (before ++ .register r :: later)).Holds id r.path ∧
      (after (before ++ .register r :: later)).referencesOf id
        = r.references.toList.filter fun q ↦ (after before).isValid q || q = r.path := by
  have hlinked := linked_after (before ++ [.register r])
  have hgrow := growsTo_after (before ++ [.register r]) later
  rw [List.append_assoc, List.singleton_append] at hgrow
  have hnew := mt isValid_after.1 hfirst
  have hholds := holds_register htime hnew
  obtain ⟨hrow, hreferences⟩ :=
    recall_apply ((linked_after before).mono fun _ _ ↦ trivial) htime hnew
  rw [after_append] at hgrow hlinked
  exact ⟨_, hgrow.row?_eq_some hrow, hgrow.holds hholds,
    (hgrow.referencesOf_eq hlinked hholds).trans hreferences⟩

end Tables

end NixStore
