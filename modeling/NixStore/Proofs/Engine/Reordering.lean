import NixStore.Proofs.Database.Reordering
import NixStore.Proofs.Engine.Registered

/-!
# Stores that were filled in another order

The engine of a local store tells nothing of the numbers of rows, so tables that are alike but for
these have the same engine. Since a closure is found by asking the engine, it is the same as well,
whatever its policy.
-/

namespace NixStore.LocalStore

variable {s : LocalStore} {history history' : List Statement} {disk : FileNode}

theorem engineAfter_eq_of_alike (h : (Tables.after history).Alike (Tables.after history')) :
    s.engineAfter history disk = s.engineAfter history' disk := by
  have hstatement : ∀ {α : Type} (query : Database → Except DatabaseError α),
      query ⟨Tables.after history, [], true⟩ = query ⟨Tables.after history', [], true⟩ →
      statement (m := Id) (pure (.ok (Database.after history))) query
        = statement (pure (.ok (Database.after history'))) query := fun query hsame ↦ by
    rw [statement_eq, statement_eq, Database.after_eq, Database.after_eq, hsame]
  have hvalid : s.isValid (m := Id) (pure (.ok (Database.after history)))
      = s.isValid (pure (.ok (Database.after history'))) :=
    funext fun p ↦ hstatement _ (congrArg Except.ok (h.isValid _))
  have hinfo : (s.engineAfter history disk).pathInfo = (s.engineAfter history' disk).pathInfo := by
    funext p
    apply ExceptT.ext
    by_cases hp : (Tables.after history).isValid (s.storeDir.print p)
    · obtain ⟨r, time, id, id', hrow, hrow', hreferences⟩ := h.row _ hp
      rw [run_pathInfo_of_row hrow, run_pathInfo_of_row hrow', hreferences]
      rfl
    · have hp' := hp
      rw [h.isValid] at hp'
      rw [run_pathInfo_of_no_row (Option.not_isSome_iff_eq_none.1 hp),
        run_pathInfo_of_no_row (Option.not_isSome_iff_eq_none.1 hp')]
  rw [engineAfter, engineAfter, engine, engine, Engine.mk.injEq]
  refine ⟨rfl, hinfo, hvalid, ?_, ?_, ?_, ?_, ?_⟩
  · funext p
    exact congrArg (· >>= _) (hstatement (·.referrers (s.storeDir.print p))
      (congrArg Except.ok (h.referrersOf _)))
  · funext p
    exact congrArg (· >>= _) (hstatement (·.outputs (s.storeDir.print p))
      (congrArg Except.ok (h.outputsOf _)))
  · funext p
    exact congrArg (· >>= _) (hstatement (·.derivers (s.storeDir.print p))
      (congrArg Except.ok (h.deriversOf _)))
  · funext hash
    exact congrArg (· >>= _) (hstatement (·.ofHashPart s.storeDir.text hash.text)
      (congrArg Except.ok (h.startingWith? _)))
  · funext p
    rw [archive, archive, hvalid]

/-- **The order of registrations does not matter**, as long as nothing is registered before what it
needs: a store that was filled in two such orders answers every question alike. -/
theorem engineAfter_eq_of_perm (s : LocalStore) (disk : FileNode) (hperm : history.Perm history')
    (hkeys : (history.map Statement.key).Nodup) (hordered : Ordered history)
    (hordered' : Ordered history') :
    s.engineAfter history disk = s.engineAfter history' disk :=
  engineAfter_eq_of_alike (Tables.alike_of_perm hperm hkeys hordered hordered')

/-- A path that refers to its derivation and to itself, the name of that as an output, and a path
on its own. -/
private def items : List Statement :=
  [add default none ⟨[fullPath default, fullPath xDrv], by decide⟩,
    .registerOutput (fullPath xDrv) (text "out") (fullPath default),
    add xDoc none .empty]

private theorem eq_drv_of_needs : ∀ statement ∈ items, ∀ full, statement.Needs full →
    full = fullPath xDrv := by
  refine List.forall_mem_cons.2 ⟨?_, List.forall_mem_cons.2 ⟨fun _ h ↦ h,
    List.forall_mem_singleton.2 fun _ h ↦ absurd h.1 List.not_mem_nil⟩⟩
  rintro full ⟨hlisted, hother⟩
  rcases List.mem_cons.1 hlisted with hself | hlisted
  · exact absurd hself hother
  · exact List.mem_singleton.1 hlisted

private theorem ordered_cons_drv {rest : List Statement} (h : rest ⊆ items) :
    Ordered (add xDrv none .empty :: rest) := by
  intro before statement later hsplit full hneeds _
  rcases before with _ | ⟨first, before⟩
  · obtain ⟨rfl, -⟩ := List.cons.inj hsplit
    exact absurd hneeds.1 List.not_mem_nil
  · obtain ⟨rfl, rfl⟩ := List.cons.inj hsplit
    have hmem : statement ∈ items := h (List.mem_append_right _ List.mem_cons_self)
    exact ⟨_, List.mem_cons_self, (eq_drv_of_needs statement hmem full hneeds).symm, rfl⟩

/-- In the second order the numbers of two rows are exchanged. -/
theorem engineAfter_eq_of_items :
    inMemory.engineAfter (add xDrv none .empty :: items) (.directory [])
      = inMemory.engineAfter (add xDrv none .empty :: items.reverse) (.directory []) :=
  engineAfter_eq_of_perm inMemory (.directory []) ((List.reverse_perm items).symm.cons _)
    (by decide) (ordered_cons_drv (List.Subset.refl _))
    (ordered_cons_drv fun _ h ↦ List.mem_reverse.1 h)

end NixStore.LocalStore
