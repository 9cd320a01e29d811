import NixStore.Engine.Fixed
import NixStore.Handle.Request
import NixStore.Proofs.Engine.Observation
import NixStore.Proofs.StorePath.Parsing

/-!
# Searches that fail on the way

A handle translates a failure of a search by its kind alone, and does not know which path it was
raised for. So what users are told is compared with the calls that the search made: a missing root
is reported only if a call said of some path that it is not valid. That path need not be the root.
-/

namespace NixStore

namespace Handle

variable {τ : Type}

theorem named_toBytes {m : Type → Type} [Monad m] (p : StorePath) :
    (named p.toBytes : ExceptT StoreError m StorePath) = pure p := by
  rw [named, StorePath.ofBytes_eq_ok_iff.2 rfl]

theorem run_closure_toBytes {ρ : Type} (h : Handle (StateM ρ)) (policy : ClosurePolicy)
    (root : StorePath) (t : ρ) :
    (h.closure root.toBytes policy).run.run t =
      let found := (h.engine.closure policy root).run.run t
      ((found.1.mapError (.ofQuery .closure root)).map (·.toList.map (·.text)), found.2) := by
  rw [closure, named_toBytes, pure_bind, ask, ExceptT.run_bind, ExceptT.run_adapt, StateT.run_bind,
    StateT.run_map]
  cases h.engine.closure policy root |>.run.run t with
  | mk r t' => cases r <;> rfl

theorem run_closure_of_not_valid {ρ : Type} (e : Engine (StateM ρ)) (policy : ClosurePolicy)
    (root : StorePath) {t : ρ} (h : ((e.isValid root).run.run t).1 = .ok false) :
    ((e.closure policy root).run.run t).1
      = .error (.error (.invalidPath (e.storeDir.print root))) := by
  rw [Engine.closure, ExceptT.run_bind, StateT.run_bind]
  obtain ⟨t', hrun⟩ : ∃ t', (e.isValid root).run.run t = (.ok false, t') := ⟨_, Prod.ext h rfl⟩
  rw [hrun]
  rfl

theorem ofQuery_cases (operation : Operation) (p : StorePath) (f : Fault) :
    (∃ cause, StoreError.ofQuery operation p f = .query operation p.text cause) ∨
      ∃ path, f = .error (.invalidPath path) ∧ StoreError.ofQuery operation p f = .notFound p := by
  rcases f with e | t
  · cases e with
    | invalidPath path => exact .inr ⟨path, rfl, rfl⟩
    | _ => exact .inl ⟨_, rfl⟩
  · exact .inl ⟨_, rfl⟩

/-- **A search that fails on the way is not taken for a root that is missing**, as long as no call
of the engine says that some path is not valid: the root is not found only if it is not valid or a
call said so, of whatever path. -/
theorem closure_not_found (h : Handle (StateM τ)) (policy : ClosurePolicy) (root : StorePath)
    (t : τ) :
    ∃ r t' calls, (h.closure root.toBytes policy).run.run t = (r, t') ∧
      (h.observed.closure root.toBytes policy).run.run (t, []) = (r, t', calls) ∧
      (((h.engine.isValid root).run.run t).1 = .ok false → r = .error (.notFound root)) ∧
      (((h.engine.isValid root).run.run t).1 = .ok true → ∀ call ∈ calls, ∀ f,
        call.fault? h.chunkSize = some f → (∀ path, f ≠ .error (.invalidPath path)) →
          ∃ cause, r = .error (.query .closure root.text cause)) ∧
      ∀ e, r = .error e → (∃ cause, e = .query .closure root.text cause) ∨
        e = .notFound root ∧ (((h.engine.isValid root).run.run t).1 = .ok false ∨
          ∃ call ∈ calls, ∃ path,
            call.fault? h.chunkSize = some (.error (.invalidPath path))) := by
  obtain ⟨r, t', calls, hx, hy, hreports⟩ :=
    Engine.reports_closure h.engine policy h.chunkSize root t []
  have hobserved : (h.observed.engine.closure policy root).run.run (t, []) = (r, t', calls) := hy
  refine ⟨(r.mapError (.ofQuery .closure root)).map (·.toList.map (·.text)), t', calls, ?_, ?_,
    fun hvalid ↦ ?_, fun _ call hcall f hf hother ↦ ?_, fun e he ↦ ?_⟩
  · rw [run_closure_toBytes, hx]
  · rw [run_closure_toBytes, hobserved]
  · have hinvalid := run_closure_of_not_valid h.engine policy root hvalid
    rw [hx] at hinvalid
    rw [show r = _ from hinvalid]
    rfl
  · obtain ⟨cause, hcause⟩ | ⟨path, hpath, -⟩ := ofQuery_cases .closure root f
    · rw [hreports.fails call hcall f hf]
      exact ⟨cause, congrArg Except.error hcause⟩
    · exact absurd hpath (hother path)
  · cases r with
    | ok found => cases he
    | error f =>
      rw [← Except.error.inj he]
      obtain hquery | ⟨path, rfl, hmissing⟩ := ofQuery_cases .closure root f
      · exact .inl hquery
      · refine .inr ⟨hmissing, ?_⟩
        obtain (⟨p, hp⟩ | ⟨hvalid, -⟩) | ⟨call, hcall, hf⟩ := hreports.raised _ rfl
        · cases hp
        · exact .inl hvalid
        · exact .inr ⟨call, hcall, path, hf⟩

private def docMissing : Fault := .error (.invalidPath (StoreDir.print default xDoc))

/-- An engine in which every path is valid, and asking for the record of one fails all the same,
saying that it is not. -/
private def strict : Engine (StateM Unit) :=
  .fixed (fun p ↦ if p = xDoc then throw docMissing else pure (some (.plain p none [xDoc])))
    (.done (.ok ()))

/-- The root is said to be valid, a call for another path fails, and the root is not found. -/
theorem closure_of_strict :
    ((strict.isValid default).run.run ()).1 = .ok true ∧ xDoc ≠ default ∧
      ∃ calls,
        ((ofEngine strict).observed.closure (default : StorePath).toBytes .references).run.run
          ((), []) = (.error (.notFound default), (), calls) ∧
        .asked (.pathInfo xDoc) (some docMissing) ∈ calls := by
  have hdoc : ∀ found calls, (strict.observed.explore .references found [xDoc]).run.run ((), calls)
      = (.error docMissing, (), calls ++
        [.asked (.pathInfo xDoc) (some docMissing)]) := by
    intro found calls
    rw [Engine.explore]
    rfl
  have hnext : (strict.observed.explore .references (.singleton default) [default]).run.run
        ((), [.asked (.isValid default) none])
      = (strict.observed.explore .references
          (discover (.singleton default) [xDoc]).1 [xDoc]).run.run
        ((), [.asked (.isValid default) none, .asked (.pathInfo default) none]) := by
    rw [Engine.explore]
    rfl
  have hroot : ((ofEngine strict).observed.engine.closure .references default).run.run ((), [])
      = (strict.observed.explore .references (.singleton default) [default]).run.run
          ((), [.asked (.isValid default) none]) := rfl
  refine ⟨rfl, by decide, [.asked (.isValid default) none, .asked (.pathInfo default) none] ++
    [.asked (.pathInfo xDoc) (some docMissing)], ?_,
    List.mem_append_right _ (List.mem_singleton.2 rfl)⟩
  rw [run_closure_toBytes, hroot, hnext, hdoc]
  rfl

end Handle

end NixStore
