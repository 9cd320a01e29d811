import NixStore.Engine.Graph
import NixStore.Engine.Query

/-!
# What a search asks, and in which order

For an engine whose answers do not change, the questions behind the expansion of a path are a list,
and the first of them that is not answered as it must be decides how the expansion fails. The order
in which a search goes through the graph is told by distance: the root, then its neighbours, then
theirs, each path where it is met first. Neither refers to the search; a path whose expansion fails
leads nowhere.
-/

namespace NixStore.Engine

/-! ## The questions of one expansion -/

/-- The paths that a question is answered with, or none if it fails. -/
def listed (question : ExceptT Fault Id (List StorePath)) : List StorePath :=
  question.run.toOption.getD []

/-- The record of a path, if there is one and the question for it does not fail. -/
def known? (e : Engine Id) (p : StorePath) : Option PathInfo := (e.pathInfo p).run.toOption.join

/-- Those of some paths that are said to be valid. -/
def validAmong (e : Engine Id) (ps : List StorePath) : List StorePath :=
  ps.filter fun p ↦ (e.isValid p).run.toOption.getD false

/-- What stands in the way of a search that asks a question: that it fails, or that a path has no
record. -/
def obstacle? (e : Engine Id) : Query → Option Fault
  | .pathInfo p =>
    match (e.pathInfo p).run with
    | .error f => some f
    | .ok none => some (.error (.danglingReference (e.storeDir.print p)))
    | .ok (some _) => none
  | .isValid p => Fault.of? (e.isValid p).run
  | .referrers p => Fault.of? (e.referrers p).run
  | .outputs drv => Fault.of? (e.outputs drv).run
  | .derivers p => Fault.of? (e.derivers p).run
  | .ofHashPart hash => Fault.of? (e.ofHashPart hash).run

/-- The questions for the valid outputs of a derivation. -/
def outputQueries (e : Engine Id) (drv : StorePath) : List Query :=
  .outputs drv :: (listed (e.outputs drv)).map .isValid

/-- The questions for the neighbours of a path, as far as they are asked at all. -/
def queries (e : Engine Id) (policy : ClosurePolicy) (p : StorePath) : List Query :=
  if policy.flip then
    .referrers p :: ((if policy.outputs then [.derivers p] else []) ++
      if policy.derivers && p.isDerivation then e.outputQueries p else [])
  else
    .pathInfo p :: ((if policy.outputs && p.isDerivation then e.outputQueries p else []) ++
      if policy.derivers then ((e.known? p).bind (·.deriver)).toList.map .isValid else [])

/-- How the expansion of a path fails, if it does: by the first question that is in its way. -/
def failure? (e : Engine Id) (policy : ClosurePolicy) (p : StorePath) : Option Fault :=
  (e.queries policy p).findSome? e.obstacle?

/-- A path expands: all questions for its neighbours are answered, and it has a record if its
references are asked for. -/
def Expands (e : Engine Id) (policy : ClosurePolicy) (p : StorePath) : Prop :=
  ∀ query ∈ e.queries policy p, e.obstacle? query = none

theorem failure?_eq_none_iff {e : Engine Id} {policy : ClosurePolicy} {p : StorePath} :
    e.failure? policy p = none ↔ e.Expands policy p :=
  List.findSome?_eq_none_iff

/-- The neighbours of a path, in the order in which they are listed. -/
def neighbours (e : Engine Id) (policy : ClosurePolicy) (p : StorePath) : List StorePath :=
  if policy.flip then
    (listed (e.referrers p)).filter (· ≠ p) ++
      (if policy.outputs then listed (e.derivers p) else []) ++
      if policy.derivers && p.isDerivation then e.validAmong (listed (e.outputs p)) else []
  else
    ((e.known? p).elim [] (·.references)).filter (· ≠ p) ++
      (if policy.outputs && p.isDerivation then e.validAmong (listed (e.outputs p)) else []) ++
      if policy.derivers then e.validAmong ((e.known? p).bind (·.deriver)).toList else []

/-! ## The order of a search -/

/-- Where a path leads: to its neighbours if it expands, and else nowhere. -/
def successors (e : Engine Id) (policy : ClosurePolicy) (p : StorePath) : List StorePath :=
  if (e.failure? policy p).isNone then e.neighbours policy p else []

/-- Those of some paths that are not among others, each where it is met first. -/
def fresh (before ps : List StorePath) : List StorePath := (ps.filter (· ∉ before)).eraseDups

/-- All that is reached from a path in at most a number of steps, the nearest first. -/
def within (e : Engine Id) (policy : ClosurePolicy) (root : StorePath) : Nat → List StorePath
  | 0 => [root]
  | n + 1 =>
    e.within policy root n ++
      fresh (e.within policy root n) ((e.within policy root n).flatMap (e.successors policy))

/-- How the first path that does not expand fails, in the order by distance. -/
def FirstFailure (e : Engine Id) (policy : ClosurePolicy) (root : StorePath) (f : Fault) : Prop :=
  ∃ n, (e.within policy root n).findSome? (e.failure? policy) = some f

/-- What is reached from a path through paths that expand. -/
inductive Reached (e : Engine Id) (policy : ClosurePolicy) (root : StorePath) : StorePath → Prop
    where
  | root : Reached e policy root root
  | edge {p q : StorePath} (reached : Reached e policy root p) (expands : e.Expands policy p)
      (next : e.Edge policy p q) : Reached e policy root q

end NixStore.Engine
