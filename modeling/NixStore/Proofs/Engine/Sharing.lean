import Mathlib.Data.List.Sort
import NixStore.Database.Shared
import NixStore.Proofs.Engine.Growth

/-!
# Closures while others register

A search asks many questions, and the database may be another one at each of them; even the record
of one path takes two. What others commit is a further part of the history, so the neighbours that
are found for a path are those in the database as it is after the question. The search carries
along that all it has found can be reached there, and that what has been expanded leads nowhere
else in the database as it was before.

So a search finds at least what could be reached when it began, and at most what can be reached
when it ends. Along references the two are the same.
-/

namespace NixStore

/-- A question that is put in some state is answered, and leads to another state. -/
def Gives {σ α : Type} (x : ExceptT Fault (StateM σ) α) (st : σ) (a : α) (st' : σ) : Prop :=
  x.run.run st = (.ok a, st')

namespace Gives

variable {σ α β : Type} {x : ExceptT Fault (StateM σ) α} {f : α → ExceptT Fault (StateM σ) β}
  {st st' st₁ : σ} {a : α} {b : β}

theorem bind (h : Gives x st a st₁) (h' : Gives (f a) st₁ b st') : Gives (x >>= f) st b st' := by
  rw [Gives] at h h' ⊢
  rw [ExceptT.run_bind, StateT.run_bind, h]
  exact h'

theorem pure (a : α) (st : σ) : Gives (Pure.pure a) st a st := rfl

theorem known {a : α} {x : Except Fault α} (h : x = .ok a) (st : σ) :
    Gives (LocalStore.known x) st a st := by
  rw [h]
  rfl

end Gives

theorem Increasing.eq_of_mem_iff {s s' : Increasing StorePath} (h : ∀ p, p ∈ s ↔ p ∈ s') :
    s = s' := by
  obtain ⟨l, hl⟩ := s
  obtain ⟨l', hl'⟩ := s'
  obtain rfl : l = l' := hl.eq_of_mem_iff hl' h
  rfl

namespace LocalStore

open Engine (Answers)

/-- The engine of a store to whose database others commit. -/
def sharedEngine (s : LocalStore) (disk : FileNode) : Engine (StateM SharedDatabase) :=
  s.engine SharedDatabase.read (pure disk)

/-- The database comes from some statements, and all statements are about paths of the store. -/
structure Stands (s : LocalStore) (history : List Statement) (st : SharedDatabase) : Prop where
  database : st.database = Database.after history
  parses : ∀ statement ∈ history, statement.Parses s.storeDir
  commits : ∀ batch ∈ st.commits, ∀ statement ∈ batch, statement.Parses s.storeDir

variable {s : LocalStore} {history : List Statement} {disk : FileNode} {root p : StorePath}
  {st st' : SharedDatabase}

theorem Stands.follows (h : s.Stands history st) (hfollows : st.Follows st') :
    ∃ more, s.Stands (history ++ more) st' := by
  obtain ⟨committed, hcommits, hdatabase⟩ := hfollows
  refine ⟨committed.flatten, ?_, ?_, ?_⟩
  · rw [hdatabase, h.database, Database.after, Database.after, List.foldl_append]
  · intro statement hmem
    rcases List.mem_append.1 hmem with hmem | hmem
    · exact h.parses statement hmem
    · obtain ⟨batch, hbatch, hmem⟩ := List.mem_flatten.1 hmem
      exact h.commits batch (hcommits ▸ List.mem_append_left _ hbatch) statement hmem
  · intro batch hbatch
    exact h.commits batch (hcommits ▸ List.mem_append_right _ hbatch)

/-! ## Single questions -/

theorem gives_statement {α : Type} {query : Database → Except DatabaseError α} {a : α}
    (h : query st.advance.database = .ok a) :
    Gives (statement SharedDatabase.read query) st a st.advance := by
  have hread : (SharedDatabase.read).run st = (.ok st.advance.database, st.advance) := rfl
  rw [Gives, run_statement, StateT.run_map, hread]
  change (Except.mapError statementFailed (query st.advance.database), st.advance) = _
  rw [h]
  rfl

/-- The record of a valid path is what it was, although it is read in two parts. -/
theorem gives_pathInfo (hst : s.Stands history st) (hp : Registered history (s.storeDir.print p)) :
    ∃ info st' more, Gives ((s.sharedEngine disk).pathInfo p) st (some info) st' ∧
      st.Follows st' ∧ s.Stands (history ++ more) st' ∧
      Answers ((s.engineAfter (history ++ more) disk).pathInfo p) (some info) := by
  obtain ⟨r, time, id, hrow⟩ := exists_row_of_growth hp
  obtain ⟨more, hst₁⟩ := hst.follows st.follows_advance
  obtain ⟨more', hst₂⟩ := hst₁.follows st.advance.follows_advance
  -- the row is read first, and the references when more has been committed
  have hrecord :
      st.advance.database.record? (s.storeDir.print p) = .ok (some (r.record time id)) := by
    rw [hst₁.database, Database.record?_after (hrow more).1]
  have hreferences : st.advance.advance.database.references id
      = .ok ((Tables.after history).referencesOf id) := by
    rw [hst₂.database, Database.references_after, List.append_assoc, (hrow _).2]
  rw [List.append_assoc] at hst₂
  obtain ⟨info, hanswer, -⟩ := exists_pathInfo disk hst₂.parses
    (Tables.isValid_after.2 (hp.mono (List.subset_append_left _ _)))
  obtain ⟨info', hinfo, hsame⟩ := exists_info_of_answers (hrow (more ++ more')).1 hanswer
  obtain rfl := Option.some.inj hsame
  rw [(hrow _).2] at hinfo
  refine ⟨info, st.advance.advance, more ++ more', ?_,
    st.follows_advance.trans st.advance.follows_advance, hst₂, hanswer⟩
  refine (gives_statement hrecord).bind ((gives_statement hreferences).bind ?_)
  exact (Gives.known hinfo _).bind (.pure _ _)

/-- The paths that refer to a path are those in the database as it is then. -/
theorem gives_referrers (hst : s.Stands history st) (p : StorePath) :
    ∃ qs st' more, Gives ((s.sharedEngine disk).referrers p) st qs st' ∧
      st.Follows st' ∧ s.Stands (history ++ more) st' ∧
      Answers ((s.engineAfter (history ++ more) disk).referrers p) qs := by
  obtain ⟨more, hst'⟩ := hst.follows st.follows_advance
  have hreferrers : (Database.after (history ++ more)).referrers (s.storeDir.print p)
      = .ok ((Tables.after (history ++ more)).referrersOf (s.storeDir.print p)) := by
    rw [Database.after_eq]
    rfl
  obtain ⟨qs, hqs, -⟩ := exists_referrers disk hst'.parses p
  obtain ⟨fulls, hfulls, hread⟩ := Answers.bind_iff.1 hqs
  obtain rfl := (answers_statement hreferrers).unique hfulls
  refine ⟨qs, st.advance, more, ?_, st.follows_advance, hst', hqs⟩
  rw [← hst'.database] at hreferrers
  exact (gives_statement hreferrers).bind (Gives.known hread _)

/-- The neighbours that are found for a valid path are those in the database as it is then. -/
theorem gives_edges (hst : s.Stands history st) (hp : Registered history (s.storeDir.print p))
    (flip : Bool) :
    ∃ qs st' more, Gives ((s.sharedEngine disk).edges ⟨flip, false, false⟩ p) st qs st' ∧
      st.Follows st' ∧ s.Stands (history ++ more) st' ∧
      Answers ((s.engineAfter (history ++ more) disk).edges ⟨flip, false, false⟩ p) qs := by
  cases flip with
  | false =>
    obtain ⟨info, st', more, hgives, hfollows, hst', hinfo⟩ := gives_pathInfo hst hp
    refine ⟨info.references.filter (· ≠ p) ++ [] ++ [], st', more, ?_, hfollows, hst', ?_⟩
    · exact hgives.bind ((Gives.pure [] st').bind ((Gives.pure [] st').bind (.pure _ st')))
    · exact Answers.bind_iff.2 ⟨_, hinfo, rfl⟩
  | true =>
    obtain ⟨qs, st', more, hgives, hfollows, hst', hqs⟩ := gives_referrers hst p
    refine ⟨qs.filter (· ≠ p) ++ [] ++ [], st', more, ?_, hfollows, hst', ?_⟩
    · exact hgives.bind ((Gives.pure [] st').bind ((Gives.pure [] st').bind (.pure _ st')))
    · exact Answers.bind_iff.2 ⟨_, hqs, rfl⟩

/-! ## The search -/

/-- A search along references or referrers, from when it began with a queue to its end. -/
structure Spans (before after : Engine Id) (policy : ClosurePolicy) (root : StorePath)
    (found : Increasing StorePath) (queue : List StorePath) (found' : Increasing StorePath) :
    Prop where
  /-- What was found stays found. -/
  subset : ∀ p ∈ found, p ∈ found'
  /-- All that is found can be reached at the end. -/
  reachable : ∀ p ∈ found', after.Reachable policy root p
  /-- What was expanded leads nowhere else, as it was at the beginning. -/
  expanded : ∀ p ∈ found', p ∈ queue ∨ p ∉ found → ∀ q, before.Edge policy p q → q ∈ found'

theorem exists_explore (disk : FileNode) (flip : Bool)
    (hroot : Registered history (s.storeDir.print root))
    (found : Increasing StorePath) (queue : List StorePath) (hqueue : ∀ p ∈ queue, p ∈ found)
    (hst : s.Stands history st)
    (hfound : ∀ p ∈ found, (s.engineAfter history disk).Reachable ⟨flip, false, false⟩ root p) :
    ∃ found' st' more,
      Gives ((s.sharedEngine disk).explore ⟨flip, false, false⟩ found queue) st found' st' ∧
      st.Follows st' ∧ s.Stands (history ++ more) st' ∧
      Spans (s.engineAfter history disk) (s.engineAfter (history ++ more) disk)
        ⟨flip, false, false⟩ root found queue found' := by
  -- the database goes on from one expansion to the next, and so does what can be reached
  induction found, queue using Engine.explore.induct generalizing history st with
  | case1 found =>
    refine ⟨found, st, [], ?_, .refl st, ?_, fun p hp ↦ hp, ?_, fun p hp hnew ↦ ?_⟩
    · rw [Engine.explore]
      exact .pure found st
    · rwa [List.append_nil]
    · rwa [List.append_nil]
    · rcases hnew with hnew | hnew
      · cases hnew
      · exact absurd hp hnew
  | case2 found p queue ih =>
    -- `p` is expanded in the database after `history ++ more`, and the rest is searched from there
    have hp := hfound p (hqueue p List.mem_cons_self)
    obtain ⟨qs, st₁, more, hedges, hfollows, hst₁, hqs⟩ :=
      gives_edges hst (registered_of_reachable hst.parses hroot hp) flip
    have hp₁ := reachable_of_growth hst₁.parses flip hp
    obtain ⟨found', st', more', hrest, hfollows', hst', hspans⟩ :=
      ih qs (hroot.mono (List.subset_append_left _ _)) (forall_mem_queue hqueue) hst₁ (by
        intro q hq
        rcases mem_discover_fst.1 hq with hq | hq
        · exact reachable_of_growth hst₁.parses flip (hfound q hq)
        · obtain ⟨n, hn⟩ := hp₁
          exact ⟨n + 1, .edge hn ((Engine.mem_edges hqs).1 hq)⟩)
    rw [List.append_assoc] at hst' hspans
    refine ⟨found', st', more ++ more', ?_, hfollows.trans hfollows', hst', ?_, hspans.reachable,
      ?_⟩
    · rw [Engine.explore]
      exact hedges.bind hrest
    · exact fun q hq ↦ hspans.subset q (mem_discover_fst.2 (.inl hq))
    · intro q hq hnew x hedge
      have hedge₁ := edge_of_growth hst₁.parses flip hedge
      by_cases hqp : q = p
      · subst hqp
        rcases (Engine.mem_edges hqs).2 hedge₁ with rfl | hx
        · exact hq
        · exact hspans.subset x (mem_discover_fst.2 (.inr hx))
      · exact hspans.expanded q hq (mem_queue_or_not_found hnew hqp) x hedge₁

/-- A closure holds at least what could be reached at first, and at most what can be reached in the
end. -/
theorem exists_closure (disk : FileNode) (flip : Bool)
    (hroot : Registered history (s.storeDir.print root)) (hst : s.Stands history st) :
    ∃ found st' more, Gives ((s.sharedEngine disk).closure ⟨flip, false, false⟩ root) st found st' ∧
      st.Follows st' ∧ s.Stands (history ++ more) st' ∧
      (∀ p, (s.engineAfter history disk).Reachable ⟨flip, false, false⟩ root p → p ∈ found) ∧
      ∀ p ∈ found,
        (s.engineAfter (history ++ more) disk).Reachable ⟨flip, false, false⟩ root p := by
  obtain ⟨more, hst₁⟩ := hst.follows st.follows_advance
  have hroot₁ := hroot.mono (List.subset_append_left history more)
  have hvalid : st.advance.database.isValid (s.storeDir.print root) = .ok true := by
    rw [hst₁.database, Database.after_eq]
    exact congrArg Except.ok (Tables.isValid_after.2 hroot₁)
  obtain ⟨found, st', more', hsearch, hfollows, hst', hspans⟩ :=
    exists_explore disk flip hroot₁ (.singleton root) [root] (by simp) hst₁ (fun p hp ↦ by
      rw [Increasing.mem_singleton.1 hp]
      exact ⟨0, .root⟩)
  have hall : ∀ p, (s.engineAfter (history ++ more) disk).Reachable ⟨flip, false, false⟩ root p →
      p ∈ found := by
    rintro p ⟨n, hp⟩
    induction hp with
    | root => exact hspans.subset root (Increasing.mem_singleton.2 rfl)
    | @edge n p q _ hedge ih =>
      refine hspans.expanded p ih ?_ q hedge
      by_cases hself : p = root
      · exact .inl (List.mem_singleton.2 hself)
      · exact .inr fun hmem ↦ hself (Increasing.mem_singleton.1 hmem)
  rw [List.append_assoc] at hst' hspans
  refine ⟨found, st', more ++ more', (gives_statement hvalid).bind ?_,
    st.follows_advance.trans hfollows, hst', fun p hp ↦ ?_, hspans.reachable⟩
  · rw [if_pos rfl]
    exact hsearch
  · exact hall p (reachable_of_growth hst₁.parses flip hp)

/-- **Closures while others register** never fail. What a valid path needs is found as it was at
first. What needs it is found at least as it was at first, and at most as it is when the search
has come to its end, with all that others have `committed` by then. -/
theorem closure_while_registering {others : List (List Statement)}
    (h : ∀ statement ∈ history, statement.Parses s.storeDir)
    (hothers : ∀ batch ∈ others, ∀ statement ∈ batch, statement.Parses s.storeDir)
    (disk : FileNode) (hroot : Registered history (s.storeDir.print root)) :
    (∃ needed last,
      ((s.sharedEngine disk).closure .references root).run.run ⟨Database.after history, others⟩
        = (.ok needed, last) ∧
      ((s.engineAfter history disk).closure .references root).run = .ok needed) ∧
    ∃ before during afterwards committed last,
      ((s.sharedEngine disk).closure .referrers root).run.run ⟨Database.after history, others⟩
        = (.ok during, last) ∧
      others = committed ++ last.commits ∧
      last.database = Database.after (history ++ committed.flatten) ∧
      ((s.engineAfter history disk).closure .referrers root).run = .ok before ∧
      ((s.engineAfter (history ++ committed.flatten) disk).closure .referrers root).run
        = .ok afterwards ∧
      (∀ p ∈ before, p ∈ during) ∧ ∀ p ∈ during, p ∈ afterwards := by
  have hst : s.Stands history ⟨Database.after history, others⟩ := ⟨rfl, h, hothers⟩
  have hanswers := answersFor_registered disk h
  constructor
  · obtain ⟨needed, hneeded, -⟩ := hanswers.exists_closure .references hroot
    obtain ⟨found, last, more, hgives, -, hst', hsub, hsup⟩ := exists_closure disk false hroot hst
    have hsame : found = needed := Increasing.eq_of_mem_iff fun p ↦ by
      rw [Engine.mem_closure_iff_reachable hneeded]
      exact ⟨fun hp ↦ reachable_references_of_growth hst'.parses hroot (hsup p hp), hsub p⟩
    rw [hsame] at hgives
    exact ⟨needed, last, hgives, hneeded⟩
  · obtain ⟨before, hbefore, -⟩ := hanswers.exists_closure .referrers hroot
    obtain ⟨during, last, more, hgives, ⟨committed, hcommits, hdatabase⟩, hst', hsub, hsup⟩ :=
      exists_closure disk true hroot hst
    obtain ⟨afterwards, hafterwards, -⟩ := (answersFor_registered disk hst'.parses).exists_closure
      .referrers (hroot.mono (List.subset_append_left _ more))
    have hlast : last.database = Database.after (history ++ committed.flatten) := by
      rw [hdatabase, Database.after, Database.after, List.foldl_append]
    have hengine : s.engineAfter (history ++ more) disk
        = s.engineAfter (history ++ committed.flatten) disk := by
      rw [engineAfter, engineAfter, ← hlast, hst'.database]
    refine ⟨before, during, afterwards, committed, last, hgives, hcommits, hlast, hbefore, ?_,
      fun p hp ↦ ?_, fun p hp ↦ ?_⟩
    · rw [← hengine]
      exact hafterwards
    · exact hsub p ((Engine.mem_closure_iff_reachable hbefore).1 hp)
    · exact (Engine.mem_closure_iff_reachable hafterwards).2 (hsup p hp)

/-- Nothing is committed before the first question, and then a referrer of the root. -/
private def arrivals : List (List Statement) :=
  [[], [add xDoc none (.singleton (fullPath default))]]

theorem closure_of_arrivals :
    (∃ needed last,
      ((inMemory.sharedEngine (.directory [])).closure .references default).run.run
          ⟨Database.after [add default none .empty], arrivals⟩ = (.ok needed, last) ∧
      ((inMemory.engineAfter [add default none .empty] (.directory [])).closure
        .references default).run = .ok needed) ∧
    ∃ before during last,
      ((inMemory.sharedEngine (.directory [])).closure .referrers default).run.run
          ⟨Database.after [add default none .empty], arrivals⟩ = (.ok during, last) ∧
      ((inMemory.engineAfter [add default none .empty] (.directory [])).closure
        .referrers default).run = .ok before ∧ ∀ p ∈ before, p ∈ during := by
  have hparses : ∀ p references, (add p none references).Parses inMemory.storeDir := fun _ _ ↦
    parses_add fun _ hderiver ↦ (by cases hderiver)
  have harrivals : ∀ batch ∈ arrivals, ∀ statement ∈ batch, statement.Parses inMemory.storeDir :=
    List.forall_mem_cons.2 ⟨List.forall_mem_nil _, List.forall_mem_singleton.2
      (List.forall_mem_singleton.2 (hparses xDoc _))⟩
  have hroot : Registered [add default none .empty] (fullPath default) :=
    ⟨_, List.mem_cons_self, rfl, rfl⟩
  obtain ⟨hneeded, before, during, -, -, last, hduring, -, -, hbefore, -, hsub, -⟩ :=
    closure_while_registering (List.forall_mem_singleton.2 (hparses default .empty)) harrivals
      (.directory []) hroot
  exact ⟨hneeded, before, during, last, hduring, hbefore, hsub⟩

end LocalStore

end NixStore
