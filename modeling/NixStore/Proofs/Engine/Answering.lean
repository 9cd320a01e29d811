import NixStore.Proofs.Engine.Reachability

/-!
# Engines that answer

An engine answers for its valid paths if it tells which paths are valid, answers every question
about a valid path, and names only valid paths as references, referrers and derivers. The outputs
that it names need not be valid, and the deriver in a record need not be either: the search asks
about those before it follows them. So each step of the search stays among the valid paths and is
answered, and a closure fails for no root but one that is not valid.
-/

namespace NixStore.Engine

variable {e : Engine Id} {valid : StorePath → Prop} {policy policy' : ClosurePolicy}
  {root p q : StorePath}

/-- Every question about a valid path is answered. -/
structure AnswersFor (e : Engine Id) (valid : StorePath → Prop) : Prop where
  isValid : ∀ p, ∃ b, Answers (e.isValid p) b ∧ (b ↔ valid p)
  pathInfo : ∀ p, valid p → ∃ info, Answers (e.pathInfo p) (some info) ∧
    ∀ q ∈ info.references, valid q
  referrers : ∀ p, valid p → ∃ qs, Answers (e.referrers p) qs ∧ ∀ q ∈ qs, valid q
  outputs : ∀ p, valid p → ∃ qs, Answers (e.outputs p) qs
  derivers : ∀ p, valid p → ∃ qs, Answers (e.derivers p) qs ∧ ∀ q ∈ qs, valid q

/-! ## The questions of one step -/

/-- A question that is answered is answered if it is wanted, and else with nothing. -/
theorem exists_answers_askIf (wanted : Bool) {question : ExceptT Fault Id (List StorePath)}
    (h : ∃ qs, Answers question qs ∧ ∀ q ∈ qs, valid q) :
    ∃ qs, Answers (askIf wanted question) qs ∧ ∀ q ∈ qs, valid q := by
  cases wanted with
  | false => exact ⟨[], rfl, nofun⟩
  | true => exact h

namespace AnswersFor

variable (h : e.AnswersFor valid)

include h

theorem exists_filterValid (ps : List StorePath) :
    ∃ qs, Answers (e.filterValid ps) qs ∧ ∀ q ∈ qs, valid q := by
  obtain ⟨qs, hqs⟩ : ∃ qs, Answers (e.filterValid ps) qs := by
    induction ps with
    | nil => exact ⟨[], rfl⟩
    | cons p ps ih =>
      obtain ⟨b, hb, -⟩ := h.isValid p
      obtain ⟨qs, hqs⟩ := ih
      cases b with
      | true => exact ⟨p :: qs, Answers.bind_iff.2 ⟨_, hb, Answers.bind_iff.2 ⟨qs, hqs, rfl⟩⟩⟩
      | false => exact ⟨qs, Answers.bind_iff.2 ⟨_, hb, hqs⟩⟩
  refine ⟨qs, hqs, fun q hq ↦ ?_⟩
  obtain ⟨b, hb, hvalid⟩ := h.isValid q
  exact hvalid.1 (hb.unique ((mem_filterValid hqs).1 hq).2)

theorem exists_validOutputs (hp : valid p) :
    ∃ qs, Answers (e.validOutputs p) qs ∧ ∀ q ∈ qs, valid q := by
  obtain ⟨os, hos⟩ := h.outputs p hp
  obtain ⟨qs, hqs, hall⟩ := h.exists_filterValid os
  exact ⟨qs, Answers.bind_iff.2 ⟨os, hos, hqs⟩, hall⟩

theorem exists_forwardEdges (hp : valid p) :
    ∃ qs, Answers (e.forwardEdges policy p) qs ∧ ∀ q ∈ qs, valid q := by
  obtain ⟨info, hinfo, hreferences⟩ := h.pathInfo p hp
  obtain ⟨outputs, houtputs, hall⟩ := exists_answers_askIf
    (policy.outputs && p.isDerivation) (h.exists_validOutputs hp)
  obtain ⟨derivers, hderivers, hall'⟩ := exists_answers_askIf policy.derivers
    (h.exists_filterValid info.deriver.toList)
  refine ⟨info.references.filter (· ≠ p) ++ outputs ++ derivers, ?_, fun q hq ↦ ?_⟩
  · refine Answers.bind_iff.2 ⟨some info, hinfo, ?_⟩
    exact Answers.bind_iff.2 ⟨outputs, houtputs, Answers.bind_iff.2 ⟨derivers, hderivers, rfl⟩⟩
  · rcases List.mem_append.1 hq with hq | hq
    · rcases List.mem_append.1 hq with hq | hq
      · exact hreferences q (List.mem_filter.1 hq).1
      · exact hall q hq
    · exact hall' q hq

theorem exists_reverseEdges (hp : valid p) :
    ∃ qs, Answers (e.reverseEdges policy p) qs ∧ ∀ q ∈ qs, valid q := by
  obtain ⟨referrers, hreferrers, hall⟩ := h.referrers p hp
  obtain ⟨derivers, hderivers, hall'⟩ := exists_answers_askIf policy.outputs
    (h.derivers p hp)
  obtain ⟨outputs, houtputs, hall''⟩ := exists_answers_askIf
    (policy.derivers && p.isDerivation) (h.exists_validOutputs hp)
  refine ⟨referrers.filter (· ≠ p) ++ derivers ++ outputs, ?_, fun q hq ↦ ?_⟩
  · refine Answers.bind_iff.2 ⟨referrers, hreferrers, ?_⟩
    exact Answers.bind_iff.2 ⟨derivers, hderivers, Answers.bind_iff.2 ⟨outputs, houtputs, rfl⟩⟩
  · rcases List.mem_append.1 hq with hq | hq
    · rcases List.mem_append.1 hq with hq | hq
      · exact hall q (List.mem_filter.1 hq).1
      · exact hall' q hq
    · exact hall'' q hq

theorem exists_edges (policy : ClosurePolicy) (hp : valid p) :
    ∃ qs, Answers (e.edges policy p) qs ∧ ∀ q ∈ qs, valid q := by
  rw [edges]
  split
  · exact h.exists_reverseEdges hp
  · exact h.exists_forwardEdges hp

theorem valid_of_edge (hp : valid p) (hedge : e.Edge policy p q) : valid q := by
  obtain ⟨qs, hqs, hall⟩ := h.exists_edges policy hp
  rcases (mem_edges hqs).2 hedge with rfl | hq
  · exact hp
  · exact hall q hq

/-! ## The whole search -/

theorem exists_explore (policy : ClosurePolicy) (found : Increasing StorePath)
    (queue : List StorePath) (hfound : ∀ p ∈ found, valid p) (hqueue : ∀ p ∈ queue, valid p) :
    ∃ s, Answers (e.explore policy found queue) s ∧ ∀ p ∈ s, valid p := by
  induction found, queue using explore.induct with
  | case1 found =>
    rw [explore]
    exact ⟨found, rfl, hfound⟩
  | case2 found p queue ih =>
    obtain ⟨qs, hqs, hall⟩ := h.exists_edges policy (hqueue p List.mem_cons_self)
    obtain ⟨s, hs, hvalid⟩ := ih qs
      (fun q hq ↦ (mem_discover_fst.1 hq).elim (hfound q) (hall q))
      (fun q hq ↦ (List.mem_append.1 hq).elim (fun hq ↦ hqueue q (List.mem_cons_of_mem p hq))
        (fun hq ↦ hall q (mem_discover_snd.1 hq).2))
    rw [explore]
    exact ⟨s, Answers.bind_iff.2 ⟨qs, hqs, hs⟩, hvalid⟩

theorem exists_closure (policy : ClosurePolicy) (hroot : valid root) :
    ∃ s, Answers (e.closure policy root) s ∧ ∀ p ∈ s, valid p := by
  obtain ⟨b, hb, hvalid⟩ := h.isValid root
  obtain ⟨s, hs, hall⟩ := h.exists_explore policy (.singleton root) [root]
    (fun p hp ↦ Increasing.mem_singleton.1 hp ▸ hroot) (fun p hp ↦ List.mem_singleton.1 hp ▸ hroot)
  refine ⟨s, Answers.bind_iff.2 ⟨b, hb, ?_⟩, hall⟩
  rw [if_pos (hvalid.2 hroot)]
  exact hs

theorem closure_of_not_valid (policy : ClosurePolicy) (hroot : ¬valid root) :
    (e.closure policy root).run = .error (.error (.invalidPath (e.storeDir.print root))) := by
  obtain ⟨b, hb, hvalid⟩ := h.isValid root
  refine (hb.run_bind _).trans ?_
  rw [if_neg (fun hb ↦ hroot (hvalid.1 hb))]
  rfl

end AnswersFor

/-! ## Edges turned around -/

theorem ReachableIn.head {n : Nat} (hedge : e.Edge policy p q)
    (h : e.ReachableIn policy q n root) : e.ReachableIn policy p (n + 1) root := by
  induction h with
  | root => exact .edge .root hedge
  | edge _ next ih => exact .edge ih next

/-- If the edges between valid paths under one policy are those under another one turned around, a
valid path that is reached under the first reaches where it was reached from under the other. -/
theorem AnswersFor.reachable_reverse (h : e.AnswersFor valid)
    (hedge : ∀ p q, valid p → valid q → e.Edge policy p q → e.Edge policy' q p) (hroot : valid root)
    (hreach : e.Reachable policy root p) : e.Reachable policy' p root := by
  obtain ⟨n, hreach⟩ := hreach
  suffices valid p ∧ e.Reachable policy' p root from this.2
  induction hreach with
  | root => exact ⟨hroot, 0, .root⟩
  | @edge n p q _ next ih =>
    obtain ⟨hp, k, hback⟩ := ih
    have hq := h.valid_of_edge hp next
    exact ⟨hq, k + 1, .head (hedge p q hp hq next) hback⟩

end NixStore.Engine
