import NixStore.Engine.Expansion
import NixStore.Proofs.Engine.Reachability

/-!
# How a closure fails

A search stops at the first path that does not expand, and which path that is depends on the order
of its queue. The order is compared with the one by distance: at each moment the queue holds the
rest of one distance, and behind it what was found of the next one, so that what has been expanded
and the rest of the current distance are together all that lies within that distance. When a path
is expanded its new neighbours go behind what was found of the next distance; when the current
distance is used up the next one becomes current.

So a path that is expanded has in front of it exactly what is nearer than it, or was met before it
at the same distance, and all of that has expanded. The search fails with the first failure in the
order by distance, and if there is none it ends with everything that is reached.
-/

namespace NixStore.Engine

variable {e : Engine Id} {policy : ClosurePolicy} {root p q : StorePath} {f f' : Fault}

/-! ## One expansion -/

/-- A question comes to an answer, unless it fails. -/
def Yields {α : Type} (question : ExceptT Fault Id α) (fault : Option Fault) (a : α) : Prop :=
  question.run = fault.elim (.ok a) .error

section

variable {α β : Type} {x : ExceptT Fault Id α} {g : α → ExceptT Fault Id β} {a : α} {b : β}
  {fault fault' : Option Fault}

theorem Yields.bind (h : Yields x fault a) (h' : Yields (g a) fault' b) :
    Yields (x >>= g) (fault.or fault') b := by
  rw [Yields] at h h' ⊢
  change (x.run >>= ExceptT.bindCont g) = _
  rw [h]
  cases fault with
  | none => exact h'
  | some f => rfl

theorem Yields.of_error (h : x.run = .error f) (g : α → ExceptT Fault Id β) (fault : Option Fault)
    (b : β) : Yields (x >>= g) ((some f).or fault) b := by
  change (x.run >>= ExceptT.bindCont g) = _
  rw [h]
  rfl

theorem Yields.pure (a : α) : Yields (pure a) none a := rfl

theorem yields_listed (question : ExceptT Fault Id (List StorePath)) :
    Yields question (Fault.of? question.run) (listed question) := by
  rw [Yields, listed]
  cases question.run <;> rfl

end

theorem findSome?_cons_eq_or {α β : Type} (g : α → Option β) (a : α) (l : List α) :
    (a :: l).findSome? g = (g a).or (l.findSome? g) := by
  rw [List.findSome?_cons]
  cases g a <;> rfl

theorem yields_isValid (e : Engine Id) (p : StorePath) :
    Yields (e.isValid p) (e.obstacle? (.isValid p)) ((e.isValid p).run.toOption.getD false) := by
  rw [Yields, obstacle?]
  cases (e.isValid p).run <;> rfl

theorem yields_filterValid (e : Engine Id) (ps : List StorePath) :
    Yields (e.filterValid ps) ((ps.map .isValid).findSome? e.obstacle?) (e.validAmong ps) := by
  induction ps with
  | nil => exact .pure []
  | cons p ps ih =>
    rw [List.map_cons, findSome?_cons_eq_or, validAmong, List.filter_cons]
    refine (yields_isValid e p).bind ?_
    split
    · have hrest := Yields.bind (g := fun rest ↦ pure (p :: rest)) ih (.pure _)
      rwa [Option.or_none] at hrest
    · exact ih

theorem yields_validOutputs (e : Engine Id) (drv : StorePath) :
    Yields (e.validOutputs drv) ((e.outputQueries drv).findSome? e.obstacle?)
      (e.validAmong (listed (e.outputs drv))) := by
  rw [outputQueries, findSome?_cons_eq_or]
  exact (yields_listed (e.outputs drv)).bind (yields_filterValid e _)

theorem Yields.askIf {question : ExceptT Fault Id (List StorePath)} {queries : List Query}
    {qs : List StorePath} (h : Yields question (queries.findSome? e.obstacle?) qs) (wanted : Bool) :
    Yields (askIf wanted question) ((if wanted then queries else []).findSome? e.obstacle?)
      (if wanted then qs else []) := by
  cases wanted with
  | false => exact .pure []
  | true => exact h

theorem yields_forwardEdges (e : Engine Id) (hflip : policy.flip = false) (p : StorePath) :
    Yields (e.forwardEdges policy p) (e.failure? policy p) (e.neighbours policy p) := by
  have hqueries : e.failure? policy p = (e.obstacle? (.pathInfo p)).or
      (((if policy.outputs && p.isDerivation then e.outputQueries p else []).findSome?
        e.obstacle?).or
      ((if policy.derivers then ((e.known? p).bind (·.deriver)).toList.map .isValid
        else []).findSome? e.obstacle?)) := by
    rw [failure?, queries, if_neg (by simp [hflip]), findSome?_cons_eq_or, List.findSome?_append]
  have hneighbours : e.neighbours policy p = ((e.known? p).elim [] (·.references)).filter (· ≠ p) ++
      (if policy.outputs && p.isDerivation then e.validAmong (listed (e.outputs p)) else []) ++
      if policy.derivers then e.validAmong ((e.known? p).bind (·.deriver)).toList else [] := by
    rw [neighbours, if_neg (by simp [hflip])]
  rw [hqueries, hneighbours, forwardEdges, known?, obstacle?]
  rcases hanswer : (e.pathInfo p).run with f | _ | info
  · exact .of_error hanswer _ _ _
  · exact Answers.run_bind hanswer _
  · have houtputs := (yields_validOutputs e p).askIf (policy.outputs && p.isDerivation)
    have hderivers := (yields_filterValid e info.deriver.toList).askIf policy.derivers
    have hrest := Yields.bind (g := fun outputs ↦ do
      let derivers ← Engine.askIf policy.derivers (e.filterValid info.deriver.toList)
      return info.references.filter (· ≠ p) ++ outputs ++ derivers) houtputs
      (Yields.bind (g := fun derivers ↦ Pure.pure _) hderivers (.pure _))
    rw [Option.or_none] at hrest
    exact (Answers.run_bind hanswer _).trans hrest

theorem yields_reverseEdges (e : Engine Id) (hflip : policy.flip) (p : StorePath) :
    Yields (e.reverseEdges policy p) (e.failure? policy p) (e.neighbours policy p) := by
  have hqueries : e.failure? policy p = (e.obstacle? (.referrers p)).or
      (((if policy.outputs then [.derivers p] else []).findSome? e.obstacle?).or
      ((if policy.derivers && p.isDerivation then e.outputQueries p else []).findSome?
        e.obstacle?)) := by
    rw [failure?, queries, if_pos hflip, findSome?_cons_eq_or, List.findSome?_append]
  rw [hqueries, neighbours, if_pos hflip, reverseEdges]
  have hderivers : Yields (e.derivers p) ([.derivers p].findSome? e.obstacle?)
      (listed (e.derivers p)) := by
    rw [findSome?_cons_eq_or, List.findSome?_nil, Option.or_none]
    exact yields_listed (e.derivers p)
  have hrest := Yields.bind (g := fun outputs ↦ Pure.pure
    ((listed (e.referrers p)).filter (· ≠ p) ++
      (if policy.outputs then listed (e.derivers p) else []) ++ outputs))
    ((yields_validOutputs e p).askIf (policy.derivers && p.isDerivation)) (.pure _)
  rw [Option.or_none] at hrest
  exact (yields_listed (e.referrers p)).bind ((hderivers.askIf policy.outputs).bind hrest)

/-- Expanding a path gives its neighbours, or the first failure among the questions for them. -/
theorem yields_edges (e : Engine Id) (policy : ClosurePolicy) (p : StorePath) :
    Yields (e.edges policy p) (e.failure? policy p) (e.neighbours policy p) := by
  rw [edges]
  split
  next hflip => exact yields_reverseEdges e hflip p
  next hflip => exact yields_forwardEdges e (Bool.eq_false_iff.2 hflip) p

/-! ## The order by distance -/

theorem mem_fresh {before ps : List StorePath} : q ∈ fresh before ps ↔ q ∉ before ∧ q ∈ ps := by
  simp [fresh, and_comm]

theorem fresh_append (before ps qs : List StorePath) :
    fresh before (ps ++ qs) = fresh before ps ++ fresh (before ++ fresh before ps) qs := by
  have hfilter : (qs.filter (· ∉ before)).removeAll (ps.filter (· ∉ before))
      = qs.filter (· ∉ before ++ fresh before ps) := by
    rw [List.removeAll, List.filter_filter]
    refine List.filter_congr fun q _ ↦ ?_
    by_cases hq : q ∈ before <;> simp [mem_fresh, hq]
  calc fresh before (ps ++ qs)
      = fresh before ps
          ++ ((qs.filter (· ∉ before)).removeAll (ps.filter (· ∉ before))).eraseDups := by
        rw [fresh, List.filter_append, List.eraseDups_append, fresh]
    _ = fresh before ps ++ fresh (before ++ fresh before ps) qs := by
        rw [hfilter, fresh.eq_1 (before ++ fresh before ps)]

theorem fresh_eq_nil {before ps : List StorePath} (h : ∀ q ∈ ps, q ∈ before) :
    fresh before ps = [] := by
  refine List.eq_nil_iff_forall_not_mem.2 fun q hq ↦ ?_
  exact (mem_fresh.1 hq).1 (h q (mem_fresh.1 hq).2)

theorem discover_snd {found : Increasing StorePath} {before : List StorePath}
    (h : ∀ q, q ∈ found ↔ q ∈ before) (ps : List StorePath) :
    (discover found ps).2 = fresh before ps := by
  induction ps generalizing found before with
  | nil => rfl
  | cons p ps ih =>
    rw [discover]
    split
    next hp =>
      rw [ih h, fresh, fresh, List.filter_cons_of_neg (by simpa using (h p).1 hp)]
    next hp =>
      have hinsert : ∀ q, q ∈ found.insert p ↔ q ∈ p :: before := by
        intro q
        rw [Increasing.mem_insert, h, List.mem_cons]
      have hfilter : (ps.filter (· ∉ before)).filter (fun q ↦ !q == p)
          = ps.filter (· ∉ p :: before) := by
        rw [List.filter_filter]
        refine List.filter_congr fun q _ ↦ ?_
        by_cases hq : q = p <;> simp [hq]
      change p :: (discover (found.insert p) ps).2 = _
      rw [ih hinsert, fresh, fresh, List.filter_cons_of_pos (by simpa [h] using hp),
        List.eraseDups_cons, hfilter]

theorem within_extends (e : Engine Id) (policy : ClosurePolicy) (root : StorePath) {n m : Nat}
    (h : n ≤ m) : e.within policy root n <+: e.within policy root m := by
  induction m with
  | zero =>
    obtain rfl := Nat.le_zero.1 h
    exact List.prefix_rfl
  | succ m ih =>
    rcases Nat.lt_succ_iff_lt_or_eq.1 (Nat.lt_succ_of_le h) with hlt | rfl
    · exact (ih (Nat.lt_succ_iff.1 hlt)).trans ⟨_, rfl⟩
    · exact List.prefix_rfl

theorem mem_successors : q ∈ e.successors policy p ↔
    e.Expands policy p ∧ q ∈ e.neighbours policy p := by
  rw [successors, ← failure?_eq_none_iff]
  cases e.failure? policy p <;> simp

theorem reached_iff_exists_mem_within :
    e.Reached policy root p ↔ ∃ n, p ∈ e.within policy root n := by
  constructor
  · intro h
    induction h with
    | root => exact ⟨0, List.mem_singleton.2 rfl⟩
    | @edge p q _ expands next ih =>
      obtain ⟨n, hn⟩ := ih
      have hanswer : Answers (e.edges policy p) (e.neighbours policy p) := by
        have hyields := yields_edges e policy p
        rwa [failure?_eq_none_iff.2 expands] at hyields
      rcases (mem_edges hanswer).2 next with rfl | hq
      · exact ⟨n, hn⟩
      · have hmem := List.mem_flatMap.2 ⟨p, hn, mem_successors.2 ⟨expands, hq⟩⟩
        refine ⟨n + 1, List.mem_append.2 ?_⟩
        by_cases hbefore : q ∈ e.within policy root n
        · exact .inl hbefore
        · exact .inr (mem_fresh.2 ⟨hbefore, hmem⟩)
  · rintro ⟨n, hn⟩
    induction n generalizing p with
    | zero =>
      rw [List.mem_singleton.1 hn]
      exact .root
    | succ n ih =>
      rcases List.mem_append.1 hn with hn | hn
      · exact ih hn
      · obtain ⟨p', hp', hp⟩ := List.mem_flatMap.1 (mem_fresh.1 hn).2
        obtain ⟨expands, hneighbour⟩ := mem_successors.1 hp
        have hyields := yields_edges e policy p'
        rw [failure?_eq_none_iff.2 expands] at hyields
        exact .edge (ih hp') expands ((mem_edges hyields).1 hneighbour)

theorem FirstFailure.unique (h : e.FirstFailure policy root f)
    (h' : e.FirstFailure policy root f') : f = f' := by
  have key : ∀ {n m : Nat} {g : Fault}, n ≤ m →
      (e.within policy root n).findSome? (e.failure? policy) = some g →
      (e.within policy root m).findSome? (e.failure? policy) = some g := by
    intro n m g hle hg
    obtain ⟨more, hmore⟩ := within_extends e policy root hle
    rw [← hmore, List.findSome?_append, hg]
    rfl
  obtain ⟨n, hn⟩ := h
  obtain ⟨m, hm⟩ := h'
  exact Option.some.inj ((key (Nat.le_max_left n m) hn).symm.trans (key (Nat.le_max_right n m) hm))

/-- Where there is a first failure, something that is reached does not expand. -/
theorem FirstFailure.exists_not_expands (h : e.FirstFailure policy root f) :
    ∃ p, e.Reached policy root p ∧ ¬e.Expands policy p := by
  obtain ⟨n, hn⟩ := h
  obtain ⟨p, hp, hfails⟩ := List.exists_of_findSome?_eq_some hn
  refine ⟨p, reached_iff_exists_mem_within.2 ⟨n, hp⟩, fun expands ↦ ?_⟩
  rw [failure?_eq_none_iff.2 expands] at hfails
  cases hfails

/-! ## The search in that order -/

/-- A search has expanded some paths, and goes on with the rest of what lies within a distance and
then with what it has found of the next one. -/
structure Stage (e : Engine Id) (policy : ClosurePolicy) (root : StorePath)
    (done current next : List StorePath) (n : Nat) : Prop where
  expands : ∀ p ∈ done, e.Expands policy p
  within_eq : e.within policy root n = done ++ current
  next_eq : next = fresh (done ++ current) (done.flatMap (e.successors policy))

namespace Stage

variable {done current next : List StorePath} {n : Nat}

theorem start (e : Engine Id) (policy : ClosurePolicy) (root : StorePath) :
    e.Stage policy root [] [root] [] 0 :=
  ⟨nofun, rfl, rfl⟩

theorem advance (h : e.Stage policy root done [] next n) :
    e.Stage policy root done next [] (n + 1) := by
  have hwithin := h.within_eq
  have hnext := h.next_eq
  rw [List.append_nil] at hwithin hnext
  refine ⟨h.expands, by rw [within, hwithin, ← hnext], (fresh_eq_nil fun q hq ↦ ?_).symm⟩
  rw [hnext, List.mem_append, mem_fresh]
  by_cases hq' : q ∈ done
  · exact .inl hq'
  · exact .inr ⟨hq', hq⟩

theorem expand (h : e.Stage policy root done (p :: current) next n)
    (expands : e.Expands policy p) :
    e.Stage policy root (done ++ [p]) current
      (next ++ fresh (done ++ (p :: current ++ next)) (e.neighbours policy p)) n := by
  have hsplit : done ++ [p] ++ current = done ++ p :: current := by
    rw [List.append_assoc, List.singleton_append]
  have hsuccessors : e.successors policy p = e.neighbours policy p := by
    rw [successors, if_pos (by rw [failure?_eq_none_iff.2 expands]; rfl)]
  refine ⟨fun q hq ↦ ?_, by rw [hsplit, h.within_eq], ?_⟩
  · rcases List.mem_append.1 hq with hq | hq
    · exact h.expands q hq
    · rw [List.mem_singleton.1 hq]
      exact expands
  · rw [hsplit, List.flatMap_append, fresh_append, ← h.next_eq, List.flatMap_singleton,
      hsuccessors, List.append_assoc]

/-- A queue that is not empty begins with the rest of some distance. -/
theorem exists_head {queue : List StorePath} (h : e.Stage policy root done current next n)
    (hqueue : p :: queue = current ++ next) :
    ∃ current' next' n', queue = current' ++ next' ∧
      e.Stage policy root done (p :: current') next' n' := by
  rcases List.cons_eq_append_iff.1 hqueue with ⟨rfl, rfl⟩ | ⟨current', rfl, hrest⟩
  · exact ⟨queue, [], n + 1, (List.append_nil queue).symm, h.advance⟩
  · exact ⟨current', next, n, hrest, h⟩

/-- A path that is to be expanded has only such in front of it that expand. -/
theorem firstFailure (h : e.Stage policy root done (p :: current) next n)
    (hfails : e.failure? policy p = some f) : e.FirstFailure policy root f := by
  refine ⟨n, ?_⟩
  rw [h.within_eq, List.findSome?_append,
    List.findSome?_eq_none_iff.2 fun q hq ↦ failure?_eq_none_iff.2 (h.expands q hq),
    List.findSome?_cons, hfails]
  rfl

theorem mem_done_iff (h : e.Stage policy root done [] [] n) :
    p ∈ done ↔ e.Reached policy root p := by
  rw [reached_iff_exists_mem_within]
  have hwithin : ∀ m, e.within policy root (n + m) = done := by
    intro m
    induction m with
    | zero => rw [Nat.add_zero, h.within_eq, List.append_nil]
    | succ m ih =>
      have hnext := h.next_eq
      rw [List.append_nil] at hnext
      rw [← Nat.add_assoc, within, ih, ← hnext, List.append_nil]
  constructor
  · intro hp
    exact ⟨n, hwithin 0 ▸ hp⟩
  · rintro ⟨m, hm⟩
    rw [← hwithin m]
    exact (within_extends e policy root (Nat.le_add_left m n)).subset hm

end Stage

/-- A search ends with all that is reached, every path of which expands, or it fails with the first
failure. -/
theorem explore_cases {done current next : List StorePath} {n : Nat}
    (found : Increasing StorePath) (queue : List StorePath)
    (stage : e.Stage policy root done current next n) (hqueue : queue = current ++ next)
    (hfound : ∀ p, p ∈ found ↔ p ∈ done ++ queue) :
    (∃ s, (e.explore policy found queue).run = .ok s ∧
      ∀ p, (p ∈ s ↔ e.Reached policy root p) ∧ (e.Reached policy root p → e.Expands policy p)) ∨
    ∃ f, (e.explore policy found queue).run = .error f ∧ e.FirstFailure policy root f := by
  induction found, queue using explore.induct generalizing done current next n with
  | case1 found =>
    obtain ⟨rfl, rfl⟩ := List.append_eq_nil_iff.1 hqueue.symm
    refine .inl ⟨found, by rw [explore]; rfl, fun p ↦ ⟨?_, fun hp ↦ ?_⟩⟩
    · rw [hfound, List.append_nil, stage.mem_done_iff]
    · exact stage.expands p (stage.mem_done_iff.2 hp)
  | case2 found p queue ih =>
    obtain ⟨current, next, n, hrest, stage⟩ := stage.exists_head hqueue
    have hyields := yields_edges e policy p
    rw [explore]
    cases hfails : e.failure? policy p with
    | some f =>
      rw [hfails] at hyields
      exact .inr ⟨f, Yields.of_error hyields _ none found, stage.firstFailure hfails⟩
    | none =>
      rw [hfails] at hyields
      have hnew : (discover found (e.neighbours policy p)).2
          = fresh (done ++ (p :: current ++ next)) (e.neighbours policy p) := by
        rw [List.cons_append, ← hrest]
        exact discover_snd hfound _
      rw [Answers.run_bind hyields]
      refine ih _ (stage.expand (failure?_eq_none_iff.1 hfails)) ?_ fun q ↦ ?_
      · rw [hnew, hrest, List.append_assoc]
      · have hqueue' : q ∈ queue ++ (discover found (e.neighbours policy p)).2 ↔
            q ∈ queue ∨ q ∉ found ∧ q ∈ e.neighbours policy p := by
          rw [List.mem_append, mem_discover_snd]
        rw [mem_discover_fst, List.mem_append, hqueue', hfound]
        simp only [List.mem_append, List.mem_cons, List.not_mem_nil, or_false]
        by_cases hqueue : q ∈ queue <;> by_cases hdone : q ∈ done <;> by_cases hqp : q = p <;>
          simp [hqueue, hdone, hqp]

/-- **A closure fails exactly, and never partway.** It is found if and only if its root is valid and
all that is reached from the root, through paths that expand, expands itself; then it is all that
is reached. Otherwise it fails as the question for the root does, or because the root is not valid,
or as the first path does, in the order by distance, that does not expand: with the failure of a
question for its neighbours, unchanged, or because it has no record. -/
theorem closure_fails_exactly (e : Engine Id) (policy : ClosurePolicy) (root : StorePath) :
    ((∃ s, (e.closure policy root).run = .ok s) ↔
      (e.isValid root).run = .ok true ∧ ∀ p, e.Reached policy root p → e.Expands policy p) ∧
    (∀ s, (e.closure policy root).run = .ok s → ∀ p, p ∈ s ↔ e.Reached policy root p) ∧
    ∀ f, (e.closure policy root).run = .error f ↔
      (e.isValid root).run = .error f ∨
      (e.isValid root).run = .ok false ∧ f = .error (.invalidPath (e.storeDir.print root)) ∨
      (e.isValid root).run = .ok true ∧ e.FirstFailure policy root f := by
  rcases hvalid : (e.isValid root).run with f | _ | _
  · have hrun : (e.closure policy root).run = .error f := Yields.of_error hvalid _ none .empty
    rw [hrun]
    simp [Id]
  · have hrun : (e.closure policy root).run
        = .error (.error (.invalidPath (e.storeDir.print root))) := Answers.run_bind hvalid _
    rw [hrun]
    simp [Id, eq_comm]
  · have hrun : (e.closure policy root).run = (e.explore policy (.singleton root) [root]).run :=
      Answers.run_bind hvalid _
    rw [hrun]
    rcases explore_cases (.singleton root) [root] (.start e policy root)
      (List.append_nil _).symm (by simp) with ⟨s, hs, hreached⟩ | ⟨f, hf, hfirst⟩
    · have hnone : ∀ f, ¬e.FirstFailure policy root f := by
        intro f hfirst
        obtain ⟨p, hp, hfails⟩ := hfirst.exists_not_expands
        exact hfails ((hreached p).2 hp)
      rw [hs]
      simpa [Id, hnone] using ⟨fun p ↦ (hreached p).2, fun p ↦ (hreached p).1⟩
    · have hunique : ∀ g, f = g ↔ e.FirstFailure policy root g := by
        intro g
        exact ⟨fun hg ↦ hg ▸ hfirst, fun hg ↦ hfirst.unique hg⟩
      rw [hf]
      simpa [Id, hunique] using hfirst.exists_not_expands

end NixStore.Engine
