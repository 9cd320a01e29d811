import NixStore.Engine.Query
import NixStore.Proofs.Engine.Relation

/-!
# Programs on an engine that is observed

The same program is run on an engine and on the engine observed. The two runs are compared step by
step: they give the same and leave the engine in the same state, and the second one has written
down the calls of the first. For a search more is carried along: whatever call fails, its failure
is what the search fails with, so it is the last one; and if a search fails without such a call,
it is for a reason of its own, that a path has no record.
-/

namespace NixStore

variable {τ : Type}

/-- A program on an engine does the same on the engine observed, and its new calls and its result
are related. -/
def Logs {ε α : Type} (x : ExceptT ε (StateM τ) α)
    (y : ExceptT ε (StateM (τ × List EngineCall)) α)
    (holds : List EngineCall → Except ε α → Prop) : Prop :=
  ∀ t calls, ∃ r t' new, x.run.run t = (r, t') ∧ y.run.run (t, calls) = (r, t', calls ++ new) ∧
    holds new r

namespace Logs

variable {ε ε' α β : Type} {x : ExceptT ε (StateM τ) α}
  {y : ExceptT ε (StateM (τ × List EngineCall)) α} {f : α → ExceptT ε (StateM τ) β}
  {g : α → ExceptT ε (StateM (τ × List EngineCall)) β}
  {holds holds' : List EngineCall → Except ε α → Prop} {both : List EngineCall → Except ε β → Prop}

theorem pure {a : α} (h : holds [] (.ok a)) : Logs (τ := τ) (pure a) (Pure.pure a) holds :=
  fun t calls ↦ ⟨.ok a, t, [], rfl, by rw [List.append_nil]; rfl, h⟩

theorem throw {e : ε} (h : holds [] (.error e)) :
    Logs (τ := τ) (throw e) (MonadExcept.throw e) holds :=
  fun t calls ↦ ⟨.error e, t, [], rfl, by rw [List.append_nil]; rfl, h⟩

theorem mono (h : Logs x y holds) (himp : ∀ calls r, holds calls r → holds' calls r) :
    Logs x y holds' := by
  intro t calls
  obtain ⟨r, t', new, hx, hy, hnew⟩ := h t calls
  exact ⟨r, t', new, hx, hy, himp new r hnew⟩

theorem bind (h : Logs x y holds) (herror : ∀ new e, holds new (.error e) → both new (.error e))
    (hok : ∀ new a, holds new (.ok a) → Logs (f a) (g a) fun new' r ↦ both (new ++ new') r) :
    Logs (x >>= f) (y >>= g) both := by
  intro t calls
  obtain ⟨r, t₁, new, hx, hy, hnew⟩ := h t calls
  rw [ExceptT.run_bind, ExceptT.run_bind, StateT.run_bind, StateT.run_bind, hx, hy]
  cases r with
  | error e => exact ⟨.error e, t₁, new, rfl, rfl, herror new e hnew⟩
  | ok a =>
    obtain ⟨r, t', new', hx', hy', hnew'⟩ := hok new a hnew t₁ (calls ++ new)
    refine ⟨r, t', new ++ new', hx', ?_, hnew'⟩
    rw [← List.append_assoc]
    exact hy'

theorem adapt (h : Logs x y holds) (translate : ε → ε')
    {holds' : List EngineCall → Except ε' α → Prop}
    (himp : ∀ calls r, holds calls r → holds' calls (r.mapError translate)) :
    Logs (x.adapt translate) (y.adapt translate) holds' := by
  intro t calls
  obtain ⟨r, t', new, hx, hy, hnew⟩ := h t calls
  rw [ExceptT.run_adapt, ExceptT.run_adapt, StateT.run_map, StateT.run_map, hx, hy]
  exact ⟨r.mapError translate, t', new, rfl, rfl, himp new r hnew⟩

end Logs

namespace Engine

/-! ## Searches -/

/-- Whichever of some calls fails, its failure is the result; and a failure that is not that of a
call is one of the program's own. -/
structure Reports {α : Type} (chunkSize : Nat) (own : Fault → Prop) (calls : List EngineCall)
    (r : Except Fault α) : Prop where
  fails : ∀ call ∈ calls, ∀ f, call.fault? chunkSize = some f → r = .error f
  raised : ∀ f, r = .error f → own f ∨ ∃ call ∈ calls, call.fault? chunkSize = some f

section

variable {α β : Type} {chunkSize : Nat} {own : Fault → Prop} {calls calls' : List EngineCall}

theorem Reports.ok (a : α) : Reports chunkSize own [] (.ok a) :=
  ⟨fun _ hcall ↦ absurd hcall List.not_mem_nil, fun _ hf ↦ by cases hf⟩

theorem Reports.error {f : Fault} (h : own f) :
    Reports chunkSize own [] (.error f : Except Fault α) :=
  ⟨fun _ hcall ↦ absurd hcall List.not_mem_nil, fun _ hf ↦ .inl (Except.error.inj hf ▸ h)⟩

theorem Reports.stop {f : Fault} (h : Reports chunkSize own calls (.error f : Except Fault α)) :
    Reports chunkSize own calls (.error f : Except Fault β) where
  fails call hcall f' hf' := congrArg Except.error (Except.error.inj (h.fails call hcall f' hf'))
  raised f' hf' := h.raised f' (congrArg Except.error (Except.error.inj hf'))

theorem Reports.append {a : α} {r : Except Fault β} (h : Reports chunkSize own calls (.ok a))
    (h' : Reports chunkSize own calls' r) : Reports chunkSize own (calls ++ calls') r where
  fails call hcall f hf := by
    rcases List.mem_append.1 hcall with hcall | hcall
    · cases h.fails call hcall f hf
    · exact h'.fails call hcall f hf
  raised f hf := by
    rcases h'.raised f hf with hown | ⟨call, hcall, hraised⟩
    · exact .inl hown
    · exact .inr ⟨call, List.mem_append_right _ hcall, hraised⟩

theorem Reports.mono {own' : Fault → Prop} {r : Except Fault α} (h : Reports chunkSize own calls r)
    (himp : ∀ {f}, own f → own' f) : Reports chunkSize own' calls r :=
  ⟨h.fails, fun f hf ↦ (h.raised f hf).imp_left himp⟩

/-- The calls of a program are reported by what it gives. -/
abbrev Traced (chunkSize : Nat) (own : Fault → Prop) (x : ExceptT Fault (StateM τ) α)
    (y : ExceptT Fault (StateM (τ × List EngineCall)) α) : Prop :=
  Logs x y (Reports chunkSize own)

variable {x : ExceptT Fault (StateM τ) α} {y : ExceptT Fault (StateM (τ × List EngineCall)) α}
  {f : α → ExceptT Fault (StateM τ) β} {g : α → ExceptT Fault (StateM (τ × List EngineCall)) β}

theorem Traced.bind (h : Traced chunkSize own x y) (h' : ∀ a, Traced chunkSize own (f a) (g a)) :
    Traced chunkSize own (x >>= f) (y >>= g) :=
  Logs.bind h (fun _ _ ↦ Reports.stop) fun _ a hnew ↦ (h' a).mono fun _ _ ↦ hnew.append

theorem Traced.pure (a : α) : Traced (τ := τ) chunkSize own (Pure.pure a) (Pure.pure a) :=
  Logs.pure (.ok a)

theorem traced_observe (chunkSize : Nat) (own : Fault → Prop) (query : Query)
    (question : ExceptT Fault (StateM τ) α) :
    Traced chunkSize own question (observe query question) := by
  intro t calls
  refine ⟨_, _, [.asked query (Fault.of? (question.run.run t).1)], rfl, rfl, ?_, fun f hf ↦ ?_⟩
  · intro call hcall f hf
    rw [List.mem_singleton.1 hcall] at hf
    exact Fault.of?_eq_some.1 hf
  · exact .inr ⟨_, List.mem_singleton.2 rfl, Fault.of?_eq_some.2 hf⟩

end

/-- Programs that are traced, as a relation between them. -/
def tracing (chunkSize : Nat) (own : Fault → Prop) :
    ProgramRelation (StateM τ) (StateM (τ × List EngineCall)) where
  Related := Traced chunkSize own
  pure := .pure
  bind := .bind

/-- A path has no record. -/
def Dangling (d : StoreDir) (f : Fault) : Prop := ∃ p, f = .error (.danglingReference (d.print p))

variable (e : Engine (StateM τ)) (policy : ClosurePolicy) (chunkSize : Nat)

theorem matches_observed : Matches (tracing chunkSize (Dangling e.storeDir)) e e.observed where
  pathInfo p := traced_observe _ _ (.pathInfo p) (e.pathInfo p)
  isValid p := traced_observe _ _ (.isValid p) (e.isValid p)
  referrers p := traced_observe _ _ (.referrers p) (e.referrers p)
  outputs drv := traced_observe _ _ (.outputs drv) (e.outputs drv)
  derivers p := traced_observe _ _ (.derivers p) (e.derivers p)
  dangling p := Logs.throw (.error ⟨p, rfl⟩)

theorem traced_explore (found : Increasing StorePath) (queue : List StorePath) :
    Traced chunkSize (Dangling e.storeDir) (e.explore policy found queue)
      (e.observed.explore policy found queue) :=
  (matches_observed e chunkSize).explore found queue

/-- The calls of a search for a closure. Its own failures are that a path has no record, or that the
root is not valid, if that is what the question for it was answered with. -/
theorem reports_closure (root : StorePath) (t : τ) (calls : List EngineCall) :
    ∃ r t' new, (e.closure policy root).run.run t = (r, t') ∧
      (e.observed.closure policy root).run.run (t, calls) = (r, t', calls ++ new) ∧
      Reports chunkSize (fun f ↦ Dangling e.storeDir f ∨
        ((e.isValid root).run.run t).1 = .ok false ∧
          f = .error (.invalidPath (e.storeDir.print root))) new r := by
  obtain ⟨valid, t₁, asked, hx, hy, hasked⟩ :=
    traced_observe chunkSize (Dangling e.storeDir) (.isValid root) (e.isValid root) t calls
  have hy : (e.observed.isValid root).run.run (t, calls) = (valid, t₁, calls ++ asked) := hy
  rw [closure, closure, ExceptT.run_bind, ExceptT.run_bind, StateT.run_bind, StateT.run_bind, hx,
    hy]
  rcases valid with f | _ | _
  · exact ⟨.error f, t₁, asked, rfl, rfl, hasked.stop.mono fun h ↦ Or.inl h⟩
  · refine ⟨.error _, t₁, asked, rfl, rfl, ?_⟩
    rw [← List.append_nil asked]
    exact (hasked.mono fun h ↦ Or.inl h).append (Reports.error (Or.inr ⟨rfl, rfl⟩))
  · obtain ⟨r, t', new, hx', hy', hnew⟩ :=
      traced_explore e policy chunkSize (.singleton root) [root] t₁ (calls ++ asked)
    refine ⟨r, t', asked ++ new, hx', ?_, (hasked.append hnew).mono fun h ↦ Or.inl h⟩
    rw [← List.append_assoc]
    exact hy'

theorem traced_closure (root : StorePath) :
    Traced chunkSize (fun _ ↦ True) (e.closure policy root) (e.observed.closure policy root) := by
  intro t calls
  obtain ⟨r, t', new, hx, hy, hnew⟩ := e.reports_closure policy chunkSize root t calls
  exact ⟨r, t', new, hx, hy, hnew.mono fun _ ↦ trivial⟩

end Engine

end NixStore
