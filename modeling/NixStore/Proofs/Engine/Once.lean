import Mathlib.Data.List.Nodup
import NixStore.Proofs.Engine.Observation
import NixStore.Proofs.Engine.Turns

/-!
# Every path is expanded once

The calls of a search are those of its expansions, one after the other, and which questions an
expansion asks, apart from checks whether paths are valid, is known from its path and the policy
alone. So what is asked is told by the list of the paths that were expanded. That list has no
repetition, it has all that was found once nothing is left in the queue, and it goes by distance.
-/

namespace NixStore.Engine

variable {τ : Type}

/-! ## The questions of one expansion -/

/-- If a program on an engine that is observed does not fail, its new calls and what it gives are
related. -/
abbrev LogsOk {α : Type} (x : ExceptT Fault (StateM τ) α)
    (y : ExceptT Fault (StateM (τ × List EngineCall)) α) (holds : List EngineCall → α → Prop) :
    Prop :=
  Logs x y fun calls r ↦ ∀ a, r = .ok a → holds calls a

/-- A program asks certain questions, if it does not fail. -/
abbrev Asks {α : Type} (queries : List Query) (x : ExceptT Fault (StateM τ) α)
    (y : ExceptT Fault (StateM (τ × List EngineCall)) α) : Prop :=
  LogsOk x y fun calls _ ↦ calls.filterMap EngineCall.query? = queries

section

variable {α β : Type} {x : ExceptT Fault (StateM τ) α}
  {y : ExceptT Fault (StateM (τ × List EngineCall)) α} {f : α → ExceptT Fault (StateM τ) β}
  {g : α → ExceptT Fault (StateM (τ × List EngineCall)) β} {queries queries' : List Query}
  {holds : List EngineCall → α → Prop} {both : List EngineCall → β → Prop}

theorem LogsOk.pure {a : α} (h : holds [] a) :
    LogsOk (τ := τ) (Pure.pure a) (Pure.pure a) holds :=
  Logs.pure fun _ hb ↦ Except.ok.inj hb ▸ h

theorem LogsOk.throw (cause : Fault) :
    LogsOk (τ := τ) (MonadExcept.throw cause) (MonadExcept.throw cause) holds :=
  Logs.throw fun _ hb ↦ by cases hb

theorem LogsOk.bind (h : LogsOk x y holds)
    (h' : ∀ new a, holds new a → LogsOk (f a) (g a) fun new' b ↦ both (new ++ new') b) :
    LogsOk (x >>= f) (y >>= g) both :=
  Logs.bind h (fun _ _ _ _ hb ↦ by cases hb) fun new a hnew ↦ h' new a (hnew a rfl)

theorem Asks.pure (a : α) : Asks (τ := τ) [] (Pure.pure a) (Pure.pure a) := LogsOk.pure rfl

theorem Asks.bind (h : Asks queries x y) (h' : ∀ a, Asks queries' (f a) (g a)) :
    Asks (queries ++ queries') (x >>= f) (y >>= g) := by
  refine LogsOk.bind h fun new a hnew ↦ (h' a).mono fun new' r hnew' b hb ↦ ?_
  exact List.filterMap_append.trans (congrArg₂ (· ++ ·) hnew (hnew' b hb))

theorem asks_observe (query : Query) (question : ExceptT Fault (StateM τ) α) :
    Asks ([.asked query none].filterMap EngineCall.query?) question (observe query question) := by
  intro t calls
  refine ⟨_, _, [.asked query (Fault.of? (question.run.run t).1)], rfl, rfl, fun a _ ↦ ?_⟩
  cases query <;> rfl

theorem Asks.askIf {question : ExceptT Fault (StateM τ) (List StorePath)}
    {question' : ExceptT Fault (StateM (τ × List EngineCall)) (List StorePath)}
    (h : Asks queries question question') (wanted : Bool) :
    Asks (if wanted then queries else []) (askIf wanted question) (askIf wanted question') := by
  cases wanted with
  | false => exact .pure []
  | true => exact h

end

variable (e : Engine (StateM τ)) (policy : ClosurePolicy)

theorem asks_filterValid (ps : List StorePath) :
    Asks [] (e.filterValid ps) (e.observed.filterValid ps) := by
  induction ps with
  | nil => exact .pure []
  | cons p ps ih =>
    refine (asks_observe (.isValid p) (e.isValid p)).bind fun valid ↦ ?_
    split
    · exact ih.bind fun rest ↦ .pure (p :: rest)
    · exact ih

theorem asks_validOutputs (drv : StorePath) :
    Asks [.outputs drv] (e.validOutputs drv) (e.observed.validOutputs drv) :=
  (asks_observe (.outputs drv) (e.outputs drv)).bind (asks_filterValid e)

theorem asks_forwardEdges (hflip : policy.flip = false) (p : StorePath) :
    Asks (policy.queries p) (e.forwardEdges policy p) (e.observed.forwardEdges policy p) := by
  have hqueries : policy.queries p = [.pathInfo p] ++
      ((if policy.outputs && p.isDerivation then [.outputs p] else []) ++
        ((if policy.derivers then [] else []) ++ [])) := by
    simp [ClosurePolicy.queries, ClosurePolicy.expansion, hflip]
  rw [hqueries]
  refine (asks_observe (.pathInfo p) (e.pathInfo p)).bind fun record ↦ ?_
  cases record with
  | none => exact LogsOk.throw _
  | some info =>
    refine ((asks_validOutputs e p).askIf _).bind fun outputs ↦ ?_
    exact ((asks_filterValid e _).askIf _).bind fun derivers ↦ .pure _

theorem asks_reverseEdges (hflip : policy.flip) (p : StorePath) :
    Asks (policy.queries p) (e.reverseEdges policy p) (e.observed.reverseEdges policy p) := by
  have hqueries : policy.queries p = [.referrers p] ++
      ((if policy.outputs then [.derivers p] else []) ++
        ((if policy.derivers && p.isDerivation then [.outputs p] else []) ++ [])) := by
    simp [ClosurePolicy.queries, ClosurePolicy.expansion, hflip]
  rw [hqueries]
  refine (asks_observe (.referrers p) (e.referrers p)).bind fun referrers ↦ ?_
  refine ((asks_observe (.derivers p) (e.derivers p)).askIf _).bind fun derivers ↦ ?_
  exact ((asks_validOutputs e p).askIf _).bind fun outputs ↦ .pure _

theorem asks_edges (p : StorePath) :
    Asks (policy.queries p) (e.edges policy p) (e.observed.edges policy p) := by
  rw [edges, edges]
  split
  · next hflip => exact asks_reverseEdges e policy hflip p
  · next hflip => exact asks_forwardEdges e policy (Bool.eq_false_iff.2 hflip) p

/-! ## The questions of a search -/

theorem logs_turns (n : Nat) (s : Search) :
    LogsOk (e.turns policy n s) (e.observed.turns policy n s) fun calls s' ↦
      ∃ more, s'.expanded = s.expanded ++ more ∧
        calls.filterMap EngineCall.query? = more.flatMap policy.queries := by
  induction n generalizing s with
  | zero => exact .pure ⟨[], (List.append_nil _).symm, rfl⟩
  | succ n ih =>
    cases hqueue : s.queue with
    | nil =>
      rw [turns_of_queue_eq_nil e policy hqueue, turns_of_queue_eq_nil e.observed policy hqueue]
      exact .pure ⟨[], (List.append_nil _).symm, rfl⟩
    | cons p queue =>
      rw [turns, turns, turn, turn, hqueue]
      simp only [bind_assoc, pure_bind]
      refine LogsOk.bind (asks_edges e policy p) fun new qs hnew ↦ ?_
      refine (ih _).mono fun new' r hnew' s' hs' ↦ ?_
      obtain ⟨more, hmore, hasked⟩ := hnew' s' hs'
      refine ⟨p :: more, ?_, ?_⟩
      · rw [hmore, Search.expanded_expand, List.append_assoc, List.singleton_append]
      · rw [List.filterMap_append, hnew, hasked, List.flatMap_cons]

theorem logs_searchFor (limit : Nat) (root : StorePath) :
    LogsOk (e.searchFor policy limit root) (e.observed.searchFor policy limit root) fun calls s ↦
      calls.filterMap EngineCall.query? = s.expanded.flatMap policy.queries := by
  refine LogsOk.bind (asks_observe (.isValid root) (e.isValid root)) fun new valid hnew ↦ ?_
  split
  · refine (logs_turns e policy limit (.start root)).mono fun new' r hnew' s hs ↦ ?_
    obtain ⟨more, hmore, hasked⟩ := hnew' s hs
    obtain rfl : s.expanded = more := hmore
    rw [List.filterMap_append, hnew, hasked]
    rfl
  · exact LogsOk.throw _

/-! ## What is asked once -/

variable {policy : ClosurePolicy} {p : StorePath} {query : Query}

theorem mem_queries : query ∈ policy.queries p ↔ query = policy.expansion p ∨
    policy.flip ∧ policy.outputs ∧ query = .derivers p ∨
    (if policy.flip then policy.derivers else policy.outputs) ∧ p.isDerivation ∧
      query = .outputs p := by
  obtain ⟨flip, outputs, derivers⟩ := policy
  cases flip <;> cases outputs <;> cases derivers <;> cases hdrv : p.isDerivation <;>
    simp [ClosurePolicy.queries, hdrv]

theorem nodup_queries (policy : ClosurePolicy) (p : StorePath) : (policy.queries p).Nodup := by
  obtain ⟨flip, outputs, derivers⟩ := policy
  cases flip <;> cases outputs <;> cases derivers <;> cases hdrv : p.isDerivation <;>
    simp [ClosurePolicy.queries, ClosurePolicy.expansion, hdrv]

theorem filterMap_queries (policy : ClosurePolicy) (p : StorePath) :
    (policy.queries p).filterMap policy.expanded? = [p] := by
  obtain ⟨flip, outputs, derivers⟩ := policy
  cases flip <;> cases outputs <;> cases derivers <;> cases hdrv : p.isDerivation <;>
    simp [ClosurePolicy.queries, ClosurePolicy.expansion, ClosurePolicy.expanded?, hdrv]

theorem eq_of_mem_queries {q : StorePath} (hp : query ∈ policy.queries p)
    (hq : query ∈ policy.queries q) : p = q := by
  rw [mem_queries, ClosurePolicy.expansion] at hp hq
  cases query <;> grind

theorem expandsOnce_of_queue_eq_nil {s : Search} {root : StorePath} {distance : StorePath → Nat}
    (h : s.Layered root distance) (hqueue : s.queue = []) :
    s.ExpandsOnce policy (s.expanded.flatMap policy.queries) := by
  have hmem : ∀ p, p ∈ s.found ↔ p ∈ s.expanded := fun p ↦ by
    rw [h.mem_found, hqueue, List.append_nil]
  have hnodup : (s.expanded.flatMap policy.queries).Nodup := by
    have hexpanded : s.expanded.Nodup := (List.nodup_append.1 h.nodup).1
    refine List.nodup_flatMap.2 ⟨fun p _ ↦ nodup_queries policy p, hexpanded.imp ?_⟩
    exact fun hne query hp hq ↦ hne (eq_of_mem_queries hp hq)
  have hat_most : ∀ query p, (∀ q, query ∈ policy.queries q → q = p) →
      (s.expanded.flatMap policy.queries).count query ≤ if p ∈ s.found then 1 else 0 := by
    intro query p hp
    rw [hnodup.count]
    split
    · next hquery =>
      obtain ⟨q, hq, hquery⟩ := List.mem_flatMap.1 hquery
      rw [if_pos ((hmem p).2 (hp q hquery ▸ hq))]
    · exact Nat.zero_le _
  constructor
  case expansion =>
    intro p
    have hself : policy.expansion p ∈ policy.queries p := mem_queries.2 (.inl rfl)
    by_cases hp : p ∈ s.found
    · rw [if_pos hp]
      exact List.count_eq_one_of_mem hnodup (List.mem_flatMap.2 ⟨p, (hmem p).1 hp, hself⟩)
    · have hle := hat_most _ p fun q hq ↦ eq_of_mem_queries hq hself
      rw [if_neg hp] at hle ⊢
      exact Nat.le_zero.1 hle
  case outputs =>
    refine fun p ↦ hat_most _ p fun q hq ↦ ?_
    rw [mem_queries, ClosurePolicy.expansion] at hq
    grind
  case derivers =>
    refine fun p ↦ hat_most _ p fun q hq ↦ ?_
    rw [mem_queries, ClosurePolicy.expansion] at hq
    grind
  case order =>
    rw [List.filterMap_flatMap]
    simp only [filterMap_queries, List.flatMap_singleton']
  case only =>
    intro query hquery
    obtain ⟨p, hp, hquery⟩ := List.mem_flatMap.1 hquery
    exact ⟨p, (hmem p).2 hp, hquery⟩

/-! ## Closures -/

/-- A search that has ended when it is stopped has found the closure. -/
theorem run_closure_of_searchFor (e : Engine (StateM τ)) {limit : Nat} {root : StorePath} {t t' : τ}
    {r : Except Fault Search} (hrun : (e.searchFor policy limit root).run.run t = (r, t'))
    (hqueue : ∀ s, r = .ok s → s.queue = []) :
    (e.closure policy root).run.run t = (r.map Search.found, t') := by
  rw [closure_eq_searchFor e policy limit, ExceptT.run_bind, StateT.run_bind, hrun]
  cases r with
  | error f => rfl
  | ok s =>
    change (e.explore policy s.found s.queue).run.run t' = _
    rw [hqueue s rfl, explore]
    rfl

/-- **Each path is expanded once, the nearest first, and the search ends.** If the answers of an
engine mention only some paths, then after one turn for each of them and one for the root the
search has ended or failed, with what the closure comes to. If it has not failed, everything that
was found was expanded once, and nothing else; outputs and derivers were asked for at most once for
each path; and paths were expanded in the order of their distances from the root, in the graph as
it was told to the search, and so in the graph of an engine whose answers do not change. -/
theorem closure_expands_once {e : Engine (StateM τ)} {known : List StorePath}
    (mentions : e.MentionsOnly known) (policy : ClosurePolicy) (root : StorePath) {limit : Nat}
    (hlimit : known.length < limit) (t : τ) :
    ∃ r t' calls, (e.searchFor policy limit root).run.run t = (r, t') ∧
      (e.closure policy root).run.run t = (r.map Search.found, t') ∧
      (e.observed.closure policy root).run.run (t, []) = (r.map Search.found, t', calls) ∧
      ∀ s, r = .ok s → s.queue = [] ∧
        s.ExpandsOnce policy (calls.filterMap EngineCall.query?) ∧
        s.NearestFirst (s.ReachesIn root) ∧
        ∀ unchanging, e.AnswersAs unchanging →
          s.NearestFirst (unchanging.ReachableIn policy root) := by
  obtain ⟨r, t', calls, hrun, hobserved, hcalls⟩ := logs_searchFor e policy limit root t []
  have hqueue : ∀ s, r = .ok s → s.queue = [] := fun s hs ↦
    always_queue_eq_nil mentions hlimit t s (by rw [hrun, hs])
  refine ⟨r, t', calls, hrun, run_closure_of_searchFor e hrun hqueue,
    run_closure_of_searchFor e.observed hobserved hqueue, fun s hs ↦ ?_⟩
  obtain ⟨distance, hlayered⟩ := always_layered e policy limit root t s (by rw [hrun, hs])
  refine ⟨hqueue s hs, ?_, hlayered.nearestFirst, fun unchanging hanswers ↦ ?_⟩
  · rw [hcalls s hs]
    exact expandsOnce_of_queue_eq_nil hlayered (hqueue s hs)
  · have htold := hanswers.told limit root t s (by rw [hrun, hs])
    exact hlayered.nearestFirst_of_told (hqueue s hs) htold

/-- The references of three paths, each of which refers to others that refer back. -/
private def backAndForth (p : StorePath) : List StorePath :=
  if p = default then [xDoc, xDrv, xDoc] else [default, xDrv, default]

private def looping : Engine Id :=
  .fixed (fun p ↦ pure (some (.plain p none (backAndForth p)))) (.done (.ok ()))

/-- The same, and the records that it is asked for are counted. -/
private def counting : Engine (StateM Nat) :=
  .fixed (fun p n ↦ ((looping.pathInfo p).run, n + 1)) (.done (.ok ()))

theorem closure_of_looping : counting.MentionsOnly [default, xDoc, xDrv] ∧
    counting.AnswersAs looping ∧ ∃ (s : Search) (calls : List EngineCall),
      (counting.closure .references default).run.run 0 = (.ok s.found, 3) ∧
      s.expanded = [default, xDoc, xDrv] ∧
      s.ExpandsOnce .references (calls.filterMap EngineCall.query?) ∧
      s.NearestFirst (looping.ReachableIn .references default) := by
  have mentions : counting.MentionsOnly [default, xDoc, xDrv] := by
    constructor
    case references =>
      rintro p t _ ⟨⟩ info ⟨⟩
      change backAndForth p ⊆ _
      rw [backAndForth]
      split <;> simp
    case deriver => rintro p t _ ⟨⟩ info ⟨⟩ drv ⟨⟩
    all_goals exact fun p ↦ .pure (List.nil_subset _)
  have answers : counting.AnswersAs looping := by
    constructor
    case pathInfo =>
      rintro p t _ ⟨⟩
      rfl
    all_goals exact fun p ↦ .answers_pure _
  obtain ⟨s, hs, hexpanded⟩ : ∃ s,
      (counting.searchFor .references 4 default).run.run 0 = (.ok s, 3) ∧
      s.expanded = [default, xDoc, xDrv] := ⟨_, rfl, rfl⟩
  obtain ⟨r, t', calls, hrun, hclosure, -, hend⟩ :=
    closure_expands_once mentions .references default (Nat.lt_succ_self 3) 0
  obtain ⟨rfl, rfl⟩ := Prod.mk.inj (hrun.symm.trans hs)
  obtain ⟨-, honce, -, hnearest⟩ := hend s rfl
  exact ⟨mentions, answers, s, calls, hclosure, hexpanded, honce, hnearest looping answers⟩

end NixStore.Engine
