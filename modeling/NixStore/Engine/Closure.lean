import NixStore.Engine.Basic
import NixStore.StorePath.Order

/-!
# Closures

The closure of a path is everything that can be reached from it along the edges which a policy
chooses. It is found by breadth-first search: the paths found so far, as an increasing list, and
the queue of those not expanded yet. Each step takes a path off the queue and puts its new
neighbours at the end, so the number of paths not found yet shrinks, or stays and the queue
shrinks. Any failure on the way fails the whole.
-/

namespace NixStore

/-- Which edges a closure follows. -/
structure ClosurePolicy where
  /-- Follow referrers and not references. -/
  flip : Bool
  /-- Follow derivations to their valid outputs, or flipped, paths to their derivers. -/
  outputs : Bool
  /-- Follow paths to their deriver, or flipped, derivations to their valid outputs. -/
  derivers : Bool
deriving DecidableEq, Repr

namespace ClosurePolicy

/-- What a path needs. -/
def references : ClosurePolicy := ⟨false, false, false⟩

/-- What needs a path. -/
def referrers : ClosurePolicy := ⟨true, false, false⟩

end ClosurePolicy

namespace Engine

variable {m : Type → Type} [Monad m]

/-- The elements of a list that are valid, in order. -/
def filterValid (e : Engine m) : List StorePath → ExceptT Fault m (List StorePath)
  | [] => pure []
  | p :: rest => do
    if ← e.isValid p then return p :: (← e.filterValid rest)
    else e.filterValid rest

/-- The valid outputs recorded for a derivation. -/
def validOutputs (e : Engine m) (drv : StorePath) : ExceptT Fault m (List StorePath) := do
  e.filterValid (← e.outputs drv)

/-- Asks a question only if its answer is wanted. -/
def askIf (wanted : Bool) (question : ExceptT Fault m (List StorePath)) :
    ExceptT Fault m (List StorePath) :=
  if wanted then question else pure []

/-- The neighbours of a path in the direction of its references. -/
def forwardEdges (e : Engine m) (policy : ClosurePolicy) (p : StorePath) :
    ExceptT Fault m (List StorePath) := do
  let some info ← e.pathInfo p
    | throw (.error (.danglingReference (e.storeDir.print p)))
  let outputs ← askIf (policy.outputs && p.isDerivation) (e.validOutputs p)
  let derivers ← askIf policy.derivers (e.filterValid info.deriver.toList)
  return info.references.filter (· ≠ p) ++ outputs ++ derivers

/-- The neighbours of a path in the direction of its referrers. -/
def reverseEdges (e : Engine m) (policy : ClosurePolicy) (p : StorePath) :
    ExceptT Fault m (List StorePath) := do
  let referrers ← e.referrers p
  let derivers ← askIf policy.outputs (e.derivers p)
  let outputs ← askIf (policy.derivers && p.isDerivation) (e.validOutputs p)
  return referrers.filter (· ≠ p) ++ derivers ++ outputs

/-- The neighbours of a path under a policy. -/
def edges (e : Engine m) (policy : ClosurePolicy) (p : StorePath) :
    ExceptT Fault m (List StorePath) :=
  if policy.flip then e.reverseEdges policy p else e.forwardEdges policy p

end Engine

/-- Puts paths into a set; also gives those that were not in it, in the order in which they were
found. -/
def discover (found : Increasing StorePath) :
    List StorePath → Increasing StorePath × List StorePath
  | [] => (found, [])
  | p :: rest =>
    if p ∈ found then discover found rest
    else
      let (found', new) := discover (found.insert p) rest
      (found', p :: new)

theorem size_discover (found : Increasing StorePath) (ps : List StorePath) :
    (discover found ps).1.size = found.size + (discover found ps).2.length := by
  induction ps generalizing found with
  | nil => rfl
  | cons p rest ih =>
    simp only [discover]
    split
    · exact ih found
    · next h =>
      simp only [List.length_cons, ih, Increasing.size_insert h]
      omega

namespace Engine

variable {m : Type → Type} [Monad m]

/-- Expands the paths of the queue, and those found by it, until none is left. -/
def explore (e : Engine m) (policy : ClosurePolicy) (found : Increasing StorePath) :
    List StorePath → ExceptT Fault m (Increasing StorePath)
  | [] => pure found
  | p :: queue => do
    let next := discover found (← e.edges policy p)
    e.explore policy next.1 (queue ++ next.2)
termination_by queue => (StorePath.count - found.size, queue.length)
decreasing_by
  rename_i ps
  have hsize := size_discover found ps
  have hbound := (discover found ps).1.size_le_count
  rcases hnew : (discover found ps).2 with _ | ⟨q, new⟩
  · -- nothing new was found, and the queue is shorter
    simp only [hnew, List.length_nil, Nat.add_zero] at hsize
    simp only [hsize, List.append_nil, List.length_cons]
    exact Prod.Lex.right _ (Nat.lt_succ_self _)
  · -- fewer paths are left to be found
    simp only [hnew, List.length_cons] at hsize
    exact Prod.Lex.left _ _ (by omega)

/-- The closure of a path under a policy. -/
def closure (e : Engine m) (policy : ClosurePolicy) (root : StorePath) :
    ExceptT Fault m (Increasing StorePath) := do
  if ← e.isValid root then e.explore policy (.singleton root) [root]
  else throw (.error (.invalidPath (e.storeDir.print root)))

end Engine

end NixStore
