import NixStore.Engine.Graph
import NixStore.Engine.Query

/-!
# The turns of a search

The loop of a search, one turn at a time, so that it can be stopped after any number of turns and
be asked what it has done. A turn takes the first path off the queue, asks for its neighbours, and
puts those that are new behind the queue. What it was told is written down with the path, since an
engine may tell something else the next time.
-/

namespace NixStore

/-- A search that has come some way. -/
structure Search where
  found : Increasing StorePath
  /-- What was found and not expanded yet. -/
  queue : List StorePath
  /-- What was expanded, each path with the neighbours that were told. -/
  turns : List (StorePath × List StorePath)

namespace Search

/-- A search that has not expanded anything. -/
def start (root : StorePath) : Search := ⟨.singleton root, [root], []⟩

/-- The paths that were expanded, in their order. -/
def expanded (s : Search) : List StorePath := s.turns.map (·.1)

/-- The search that has a path expanded, and a queue left from before. -/
def expand (s : Search) (p : StorePath) (queue neighbours : List StorePath) : Search :=
  let next := discover s.found neighbours
  ⟨next.1, queue ++ next.2, s.turns ++ [(p, neighbours)]⟩

/-- From one path to another, as the search was told. -/
def Leads (s : Search) (p q : StorePath) : Prop := ∃ qs, (p, qs) ∈ s.turns ∧ q ∈ qs

/-- What a path leads to in a number of steps, as the search was told. -/
inductive ReachesIn (s : Search) (root : StorePath) : Nat → StorePath → Prop where
  | root : ReachesIn s root 0 root
  | step {n : Nat} {p q : StorePath} (reaches : ReachesIn s root n p) (leads : s.Leads p q) :
      ReachesIn s root (n + 1) q

end Search

namespace Engine

section

variable {m : Type → Type} [Monad m]

/-- One turn; nothing is done if nothing is left to be expanded. -/
def turn (e : Engine m) (policy : ClosurePolicy) (s : Search) : ExceptT Fault m Search :=
  match s.queue with
  | [] => pure s
  | p :: queue => return s.expand p queue (← e.edges policy p)

def turns (e : Engine m) (policy : ClosurePolicy) : Nat → Search → ExceptT Fault m Search
  | 0, s => pure s
  | n + 1, s => do e.turns policy n (← e.turn policy s)

/-- The search for the closure of a path, stopped after a number of turns. -/
def searchFor (e : Engine m) (policy : ClosurePolicy) (limit : Nat) (root : StorePath) :
    ExceptT Fault m Search := do
  if ← e.isValid root then e.turns policy limit (.start root)
  else throw (.error (.invalidPath (e.storeDir.print root)))

end

variable {τ : Type}

/-- All answers to a question have a property, whatever state it is asked in. -/
def Always {α : Type} (question : ExceptT Fault (StateM τ) α) (holds : α → Prop) : Prop :=
  ∀ t a, (question.run.run t).1 = .ok a → holds a

/-- The paths that the answers of an engine mention are all among some. -/
structure MentionsOnly (e : Engine (StateM τ)) (known : List StorePath) : Prop where
  references : ∀ p, Always (e.pathInfo p) fun record ↦ ∀ info ∈ record, info.references ⊆ known
  deriver : ∀ p, Always (e.pathInfo p) fun record ↦
    ∀ info ∈ record, ∀ drv ∈ info.deriver, drv ∈ known
  referrers : ∀ p, Always (e.referrers p) (· ⊆ known)
  outputs : ∀ drv, Always (e.outputs drv) (· ⊆ known)
  derivers : ∀ p, Always (e.derivers p) (· ⊆ known)

/-- All answers of an engine are those of one that does not change. -/
structure AnswersAs (e : Engine (StateM τ)) (unchanging : Engine Id) : Prop where
  pathInfo : ∀ p, Always (e.pathInfo p) (Answers (unchanging.pathInfo p))
  isValid : ∀ p, Always (e.isValid p) (Answers (unchanging.isValid p))
  referrers : ∀ p, Always (e.referrers p) (Answers (unchanging.referrers p))
  outputs : ∀ drv, Always (e.outputs drv) (Answers (unchanging.outputs drv))
  derivers : ∀ p, Always (e.derivers p) (Answers (unchanging.derivers p))

end Engine

/-! ## Questions -/

/-- The question of a call, unless it only checks whether a path is valid. -/
def EngineCall.query? : EngineCall → Option Query
  | asked (.isValid _) _ => none
  | asked query _ => some query
  | archived _ _ => none

namespace ClosurePolicy

def expansion (policy : ClosurePolicy) (p : StorePath) : Query :=
  if policy.flip then .referrers p else .pathInfo p

/-- The questions for the neighbours of a path, apart from checks whether paths are valid. -/
def queries (policy : ClosurePolicy) (p : StorePath) : List Query :=
  policy.expansion p ::
    if policy.flip then
      (if policy.outputs then [.derivers p] else []) ++
        if policy.derivers && p.isDerivation then [.outputs p] else []
    else if policy.outputs && p.isDerivation then [.outputs p] else []

/-- The path that a question expands, if it does. -/
def expanded? (policy : ClosurePolicy) : Query → Option StorePath
  | .referrers p => if policy.flip then some p else none
  | .pathInfo p => if policy.flip then none else some p
  | _ => none

end ClosurePolicy

/-- The questions of a search that has ended, apart from checks whether paths are valid. -/
structure Search.ExpandsOnce (s : Search) (policy : ClosurePolicy) (asked : List Query) : Prop where
  /-- What is found is expanded once, and nothing else is expanded. -/
  expansion : ∀ p, asked.count (policy.expansion p) = if p ∈ s.found then 1 else 0
  outputs : ∀ p, asked.count (.outputs p) ≤ if p ∈ s.found then 1 else 0
  derivers : ∀ p, asked.count (.derivers p) ≤ if p ∈ s.found then 1 else 0
  /-- The turns are written down in the order in which paths are expanded. -/
  order : asked.filterMap policy.expanded? = s.expanded
  /-- Nothing else is asked. -/
  only : ∀ query ∈ asked, ∃ p ∈ s.found, query ∈ policy.queries p

end NixStore
