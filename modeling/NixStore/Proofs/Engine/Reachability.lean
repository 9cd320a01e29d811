import NixStore.Engine.Fixed
import NixStore.Engine.Graph
import NixStore.Handle

/-!
# A closure is what can be reached

The search for a closure is held against the graph that its policy follows. For one path, what the
engine is asked comes to exactly the edges that leave the path, except for a reference to the path
itself, which the search passes over. For the whole search, three facts are carried along the
queue: what was found stays found; a property that holds of what was found, and is handed on along
edges, holds of everything in the end; and what was taken off the queue, or was found later, has
all its neighbours among what was found. At the end the queue is empty, so the result is closed
under edges.
-/

namespace NixStore

namespace Engine

variable {e : Engine Id} {policy : ClosurePolicy} {root p q : StorePath}

/-! ## The edges of one path -/

theorem mem_filterValid {ps qs : List StorePath} (h : Answers (e.filterValid ps) qs) :
    q ∈ qs ↔ q ∈ ps ∧ Answers (e.isValid q) true := by
  induction ps generalizing qs with
  | nil =>
    obtain rfl : [] = qs := by simpa [filterValid] using h
    simp
  | cons p ps ih =>
    obtain ⟨valid, hvalid, h⟩ := Answers.bind_iff.1 h
    cases valid with
    | true =>
      obtain ⟨rest, hrest, h⟩ := Answers.bind_iff.1 h
      obtain rfl : p :: rest = qs := by simpa using h
      simp only [List.mem_cons, ih hrest]
      constructor
      · rintro (rfl | ⟨hq, hv⟩)
        · exact ⟨.inl rfl, hvalid⟩
        · exact ⟨.inr hq, hv⟩
      · rintro ⟨rfl | hq, hv⟩
        · exact .inl rfl
        · exact .inr ⟨hq, hv⟩
    | false =>
      rw [ih h, List.mem_cons]
      constructor
      · rintro ⟨hq, hv⟩
        exact ⟨.inr hq, hv⟩
      · rintro ⟨rfl | hq, hv⟩
        · cases hvalid.unique hv
        · exact ⟨hq, hv⟩

theorem mem_validOutputs {qs : List StorePath} (h : Answers (e.validOutputs p) qs) :
    q ∈ qs ↔ ∃ os, Answers (e.outputs p) os ∧ q ∈ os ∧ Answers (e.isValid q) true := by
  obtain ⟨os, hos, h⟩ := Answers.bind_iff.1 h
  rw [mem_filterValid h]
  constructor
  · rintro ⟨hq, hv⟩
    exact ⟨os, hos, hq, hv⟩
  · rintro ⟨os', hos', hq, hv⟩
    rw [hos.unique hos']
    exact ⟨hq, hv⟩

theorem mem_askIf {wanted : Bool} {question : ExceptT Fault Id (List StorePath)}
    {qs : List StorePath} (h : Answers (askIf wanted question) qs) :
    q ∈ qs ↔ wanted ∧ ∃ os, Answers question os ∧ q ∈ os := by
  cases wanted with
  | false =>
    obtain rfl : [] = qs := by simpa [askIf] using h
    simp
  | true =>
    constructor
    · intro hq
      exact ⟨rfl, qs, h, hq⟩
    · rintro ⟨-, os, hos, hq⟩
      rw [Answers.unique h hos]
      exact hq

/-- The neighbours found in the direction of references, but for the path itself. -/
theorem mem_forwardEdges (hflip : policy.flip = false) {qs : List StorePath}
    (h : Answers (e.forwardEdges policy p) qs) :
    (q ∈ qs → e.Edge policy p q) ∧ (e.Edge policy p q → q = p ∨ q ∈ qs) := by
  obtain ⟨_ | info, hinfo, h⟩ := Answers.bind_iff.1 h
  · simp at h
  obtain ⟨outputs, houtputs, h⟩ := Answers.bind_iff.1 h
  obtain ⟨derivers, hderivers, h⟩ := Answers.bind_iff.1 h
  obtain rfl : info.references.filter (· ≠ p) ++ outputs ++ derivers = qs := by simpa using h
  have hmem : q ∈ info.references.filter (· ≠ p) ++ outputs ++ derivers ↔
      (q ∈ info.references ∧ q ≠ p) ∨ q ∈ outputs ∨ q ∈ derivers := by
    simp
  rw [hmem, mem_askIf houtputs, mem_askIf hderivers, Bool.and_eq_true]
  constructor
  · rintro (⟨hq, -⟩ | ⟨⟨hwanted, hdrv⟩, os, hos, hq⟩ | ⟨hwanted, os, hos, hq⟩)
    · exact .reference hflip hinfo hq
    · obtain ⟨recorded, hrecorded, hq, hv⟩ := (mem_validOutputs hos).1 hq
      exact .output hflip hwanted hdrv hrecorded hq hv
    · obtain ⟨hq, hv⟩ := (mem_filterValid hos).1 hq
      exact .deriver hflip hwanted hinfo (Option.mem_toList.1 hq) hv
  · intro hedge
    cases hedge with
    | reference _ hinfo' hq =>
      obtain rfl := Option.some.inj (hinfo.unique hinfo')
      by_cases hself : q = p
      · exact .inl hself
      · exact .inr (.inl ⟨hq, hself⟩)
    | output _ hwanted hdrv hrecorded hq hv =>
      rw [askIf, if_pos (by rw [hwanted, hdrv]; rfl)] at houtputs
      exact .inr (.inr (.inl ⟨⟨hwanted, hdrv⟩, outputs, houtputs,
        (mem_validOutputs houtputs).2 ⟨_, hrecorded, hq, hv⟩⟩))
    | deriver _ hwanted hinfo' hq hv =>
      obtain rfl := Option.some.inj (hinfo.unique hinfo')
      rw [askIf, if_pos hwanted] at hderivers
      exact .inr (.inr (.inr ⟨hwanted, derivers, hderivers,
        (mem_filterValid hderivers).2 ⟨Option.mem_toList.2 hq, hv⟩⟩))
    | referrer hflipped | maker hflipped | product hflipped =>
      rw [hflip] at hflipped
      cases hflipped

/-- The neighbours found in the direction of referrers, but for the path itself. -/
theorem mem_reverseEdges (hflip : policy.flip) {qs : List StorePath}
    (h : Answers (e.reverseEdges policy p) qs) :
    (q ∈ qs → e.Edge policy p q) ∧ (e.Edge policy p q → q = p ∨ q ∈ qs) := by
  obtain ⟨referrers, hreferrers, h⟩ := Answers.bind_iff.1 h
  obtain ⟨derivers, hderivers, h⟩ := Answers.bind_iff.1 h
  obtain ⟨outputs, houtputs, h⟩ := Answers.bind_iff.1 h
  obtain rfl : referrers.filter (· ≠ p) ++ derivers ++ outputs = qs := by simpa using h
  have hmem : q ∈ referrers.filter (· ≠ p) ++ derivers ++ outputs ↔
      (q ∈ referrers ∧ q ≠ p) ∨ q ∈ derivers ∨ q ∈ outputs := by
    simp
  rw [hmem, mem_askIf hderivers, mem_askIf houtputs, Bool.and_eq_true]
  constructor
  · rintro (⟨hq, -⟩ | ⟨hwanted, os, hos, hq⟩ | ⟨⟨hwanted, hdrv⟩, os, hos, hq⟩)
    · exact .referrer hflip hreferrers hq
    · exact .maker hflip hwanted hos hq
    · obtain ⟨recorded, hrecorded, hq, hv⟩ := (mem_validOutputs hos).1 hq
      exact .product hflip hwanted hdrv hrecorded hq hv
  · intro hedge
    cases hedge with
    | reference hforward | output hforward | deriver hforward =>
      rw [hflip] at hforward
      cases hforward
    | referrer _ hreferrers' hq =>
      obtain rfl := hreferrers.unique hreferrers'
      by_cases hself : q = p
      · exact .inl hself
      · exact .inr (.inl ⟨hq, hself⟩)
    | maker _ hwanted hrecorded hq =>
      exact .inr (.inr (.inl ⟨hwanted, _, hrecorded, hq⟩))
    | product _ hwanted hdrv hrecorded hq hv =>
      rw [askIf, if_pos (by rw [hwanted, hdrv]; rfl)] at houtputs
      exact .inr (.inr (.inr ⟨⟨hwanted, hdrv⟩, outputs, houtputs,
        (mem_validOutputs houtputs).2 ⟨_, hrecorded, hq, hv⟩⟩))

/-- What the search finds next to a path are its neighbours in the graph, but for the path
itself. -/
theorem mem_edges {qs : List StorePath} (h : Answers (e.edges policy p) qs) :
    (q ∈ qs → e.Edge policy p q) ∧ (e.Edge policy p q → q = p ∨ q ∈ qs) := by
  cases hflip : policy.flip with
  | false =>
    rw [edges, if_neg (by simp [hflip])] at h
    exact mem_forwardEdges hflip h
  | true =>
    rw [edges, if_pos hflip] at h
    exact mem_reverseEdges hflip h

end Engine

/-! ## The search -/

@[simp] theorem mem_discover_fst {found : Increasing StorePath} {ps : List StorePath}
    {q : StorePath} : q ∈ (discover found ps).1 ↔ q ∈ found ∨ q ∈ ps := by
  induction ps generalizing found with
  | nil => simp [discover]
  | cons p ps ih =>
    rw [discover]
    split
    · next h =>
      rw [ih, List.mem_cons]
      constructor
      · rintro (hq | hq)
        · exact .inl hq
        · exact .inr (.inr hq)
      · rintro (hq | rfl | hq)
        · exact .inl hq
        · exact .inl h
        · exact .inr hq
    · rw [ih, Increasing.mem_insert, List.mem_cons, or_assoc, or_left_comm]

@[simp] theorem mem_discover_snd {found : Increasing StorePath} {ps : List StorePath}
    {q : StorePath} : q ∈ (discover found ps).2 ↔ q ∉ found ∧ q ∈ ps := by
  induction ps generalizing found with
  | nil => simp [discover]
  | cons p ps ih =>
    rw [discover]
    split
    · next h =>
      rw [ih, List.mem_cons]
      constructor
      · rintro ⟨hnew, hq⟩
        exact ⟨hnew, .inr hq⟩
      · rintro ⟨hnew, rfl | hq⟩
        · exact absurd h hnew
        · exact ⟨hnew, hq⟩
    · next h =>
      rw [List.mem_cons, ih, Increasing.mem_insert, List.mem_cons]
      constructor
      · rintro (rfl | ⟨hnew, hq⟩)
        · exact ⟨h, .inl rfl⟩
        · exact ⟨fun hf ↦ hnew (.inr hf), .inr hq⟩
      · rintro ⟨hnew, hq⟩
        by_cases hqp : q = p
        · exact .inl hqp
        · exact .inr ⟨fun hf ↦ hf.elim hqp hnew, hq.resolve_left hqp⟩

section

variable {found : Increasing StorePath} {p q : StorePath} {queue qs : List StorePath}

theorem forall_mem_queue (hqueue : ∀ q ∈ p :: queue, q ∈ found) :
    ∀ q ∈ queue ++ (discover found qs).2, q ∈ (discover found qs).1 := by
  intro q hq
  rcases List.mem_append.1 hq with hq | hq
  · exact mem_discover_fst.2 (.inl (hqueue q (List.mem_cons_of_mem p hq)))
  · exact mem_discover_fst.2 (.inr (mem_discover_snd.1 hq).2)

/-- What is still to be expanded, but for the path that is expanded now. -/
theorem mem_queue_or_not_found (hq : q ∈ p :: queue ∨ q ∉ found) (hne : q ≠ p) :
    q ∈ queue ++ (discover found qs).2 ∨ q ∉ (discover found qs).1 := by
  rcases hq with hq | hq
  · exact .inl (List.mem_append_left _ ((List.mem_cons.1 hq).resolve_left hne))
  · by_cases hmem : q ∈ qs
    · exact .inl (List.mem_append_right _ (mem_discover_snd.2 ⟨hq, hmem⟩))
    · exact .inr fun hf ↦ (mem_discover_fst.1 hf).elim hq hmem

end

namespace Engine

variable {e : Engine Id} {policy : ClosurePolicy} {root p q : StorePath}

/-- What a search that started with a queue has come to. -/
structure Explored (e : Engine Id) (policy : ClosurePolicy) (found : Increasing StorePath)
    (queue : List StorePath) (s : Increasing StorePath) : Prop where
  /-- What was found stays found. -/
  subset : ∀ p ∈ found, p ∈ s
  /-- What is handed on along edges from all that was found holds of all that is found. -/
  sound : ∀ holds : StorePath → Prop, (∀ p ∈ found, holds p) →
    (∀ p qs, holds p → Answers (e.edges policy p) qs → ∀ q ∈ qs, holds q) → ∀ p ∈ s, holds p
  /-- What was in the queue, or not found before, was expanded. -/
  expanded : ∀ p ∈ s, p ∈ queue ∨ p ∉ found →
    ∃ qs, Answers (e.edges policy p) qs ∧ ∀ q ∈ qs, q ∈ s

theorem explored_of_answers (found : Increasing StorePath) (queue : List StorePath)
    {s : Increasing StorePath} (hqueue : ∀ p ∈ queue, p ∈ found)
    (h : Answers (e.explore policy found queue) s) : Explored e policy found queue s := by
  induction found, queue using explore.induct generalizing s with
  | case1 found =>
    rw [explore] at h
    obtain rfl : found = s := by simpa using h
    refine ⟨fun p hp ↦ hp, fun holds hfound _ ↦ hfound, fun p hp hnew ↦ ?_⟩
    rcases hnew with hnew | hnew
    · cases hnew
    · exact absurd hp hnew
  | case2 found p queue ih =>
    rw [explore] at h
    obtain ⟨qs, hqs, h⟩ := Answers.bind_iff.1 h
    have hp : p ∈ found := hqueue p List.mem_cons_self
    have rest := ih qs (forall_mem_queue hqueue) h
    refine ⟨fun q hq ↦ rest.subset q (mem_discover_fst.2 (.inl hq)), ?_, ?_⟩
    · intro holds hfound hstep
      refine rest.sound holds (fun q hq ↦ ?_) hstep
      rcases mem_discover_fst.1 hq with hq | hq
      · exact hfound q hq
      · exact hstep p qs (hfound p hp) hqs q hq
    · intro q hq hnew
      by_cases hqp : q = p
      · subst hqp
        exact ⟨qs, hqs, fun x hx ↦ rest.subset x (mem_discover_fst.2 (.inr hx))⟩
      · exact rest.expanded q hq (mem_queue_or_not_found hnew hqp)

/-! ## The closure -/

theorem mem_closure_iff_reachable {s : Increasing StorePath}
    (h : Answers (e.closure policy root) s) : p ∈ s ↔ e.Reachable policy root p := by
  obtain ⟨valid, -, h⟩ := Answers.bind_iff.1 h
  cases valid with
  | false => simp at h
  | true =>
    have search := explored_of_answers (.singleton root) [root] (by simp) h
    constructor
    · refine search.sound (e.Reachable policy root) ?_ ?_ p
      · intro q hq
        rw [Increasing.mem_singleton.1 hq]
        exact ⟨0, .root⟩
      · rintro p qs ⟨n, hp⟩ hqs q hq
        exact ⟨n + 1, .edge hp ((mem_edges hqs).1 hq)⟩
    · rintro ⟨n, hp⟩
      induction hp with
      | root => exact search.subset root (Increasing.mem_singleton.2 rfl)
      | @edge n p q _ hedge ih =>
        obtain ⟨qs, hqs, hsub⟩ := search.expanded p ih (by
          by_cases hroot : p = root
          · exact .inl (List.mem_singleton.2 hroot)
          · exact .inr fun hf ↦ hroot (Increasing.mem_singleton.1 hf))
        rcases (mem_edges hqs).2 hedge with rfl | hq
        · exact ih
        · exact hsub q hq

end Engine

/-! ## The closure as a handle gives it -/

namespace Handle

variable {h : Handle Id} {policy : ClosurePolicy} {root : StorePath} {s : Increasing StorePath}

/-- A handle gives the texts of the paths that its engine's closure holds. -/
theorem run_closure (found : Engine.Answers (h.engine.closure policy root) s) {name : Bytes}
    (hname : StorePath.ofBytes name = .ok root) :
    (h.closure name policy).run = .ok (s.toList.map (·.text)) := by
  rw [closure, named, hname]
  change (ask .closure root (h.engine.closure policy root) >>= _).run = _
  have hask : (ask .closure root (h.engine.closure policy root)).run = .ok s := by
    rw [ask]
    change Except.mapError _ (h.engine.closure policy root).run = _
    rw [show (h.engine.closure policy root).run = .ok s from found]
    rfl
  change ((ask .closure root (h.engine.closure policy root)).run >>= ExceptT.bindCont _) = _
  rw [hask]
  rfl

/-- **A closure is reachability.** The paths that a successful search finds are exactly those that
its root leads to along the edges of the policy, and a handle that is asked for them by any name
of the root lists them without repetition in the order of their bytes. -/
theorem closure_eq_reachable (found : (h.engine.closure policy root).run = .ok s) :
    (∀ p, p ∈ s ↔ h.engine.Reachable policy root p) ∧
      ∃ names : List Text,
        (∀ name, StorePath.ofBytes name = .ok root → (h.closure name policy).run = .ok names) ∧
        (∀ t, t ∈ names ↔ ∃ p, h.engine.Reachable policy root p ∧ p.text = t) ∧
        (names.map Text.utf8).Pairwise (· < ·) := by
  have hmem : ∀ p, p ∈ s ↔ h.engine.Reachable policy root p :=
    fun p ↦ Engine.mem_closure_iff_reachable found
  refine ⟨hmem, s.toList.map (·.text), fun name hname ↦ run_closure found hname, fun t ↦ ?_, ?_⟩
  · rw [List.mem_map]
    constructor
    · rintro ⟨p, hp, ht⟩
      exact ⟨p, (hmem p).1 hp, ht⟩
    · rintro ⟨p, hp, ht⟩
      exact ⟨p, (hmem p).2 hp, ht⟩
  · rw [List.map_map, List.pairwise_map]
    refine s.sorted.imp fun {p q} hpq ↦ ?_
    simp only [Function.comp, StorePath.utf8_text]
    exact StorePath.toBytes_lt_toBytes hpq

/-- A derivation with two outputs, one of which is not valid. -/
private def built : Engine Id :=
  { Engine.fixed (fun p ↦ pure (some (.plain p (if p = default then some xDrv else none) [p])))
      (.done (.ok ())) with
    isValid p := pure (p ≠ xDoc)
    referrers p := pure [p]
    outputs _ := pure [xDoc, default]
    derivers _ := pure [xDrv] }

theorem closure_of_built :
    ∃ s : Increasing StorePath, s.toList = [default, xDrv] ∧
      (built.closure ⟨false, true, true⟩ default).run = .ok s ∧
      ∀ p, p ∈ s ↔ built.Reachable ⟨false, true, true⟩ default p := by
  have found : (built.closure ⟨false, true, true⟩ default).run
      = .ok ⟨[default, xDrv], by decide⟩ := by
    simp +decide [Engine.closure, Engine.explore, Engine.edges, Engine.forwardEdges,
      Engine.askIf, Engine.validOutputs, Engine.filterValid, discover, built, Engine.fixed,
      PathInfo.plain]
    rfl
  exact ⟨_, rfl, found, (closure_eq_reachable (h := ofEngine built) found).1⟩

end Handle

end NixStore
