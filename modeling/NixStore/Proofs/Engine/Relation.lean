import NixStore.Engine.Closure

/-!
# A search on two engines

A search learns of its engine only what it is answered. So if the questions to two engines are
related, by a relation between programs that is kept when both go on with the same answer, then the
searches on the two engines are related. What the relation says, of states or of calls, does not
matter to this.
-/

namespace NixStore

/-- A relation between programs that is kept when both go on with the same answer. -/
structure ProgramRelation (m m' : Type → Type) [Monad m] [Monad m'] where
  Related : {α : Type} → ExceptT Fault m α → ExceptT Fault m' α → Prop
  pure : ∀ {α : Type} (a : α), Related (pure a) (pure a)
  bind : ∀ {α β : Type} {x : ExceptT Fault m α} {y : ExceptT Fault m' α}
    {f : α → ExceptT Fault m β} {g : α → ExceptT Fault m' β},
    Related x y → (∀ a, Related (f a) (g a)) → Related (x >>= f) (y >>= g)

namespace Engine

variable {m m' : Type → Type} [Monad m] [Monad m'] {r : ProgramRelation m m'} {e : Engine m}
  {e' : Engine m'} {policy : ClosurePolicy}

/-- The questions of a search to two engines are related, and so is the failure that the search
adds to theirs. -/
structure Matches (r : ProgramRelation m m') (e : Engine m) (e' : Engine m') : Prop where
  pathInfo : ∀ p, r.Related (e.pathInfo p) (e'.pathInfo p)
  isValid : ∀ p, r.Related (e.isValid p) (e'.isValid p)
  referrers : ∀ p, r.Related (e.referrers p) (e'.referrers p)
  outputs : ∀ drv, r.Related (e.outputs drv) (e'.outputs drv)
  derivers : ∀ p, r.Related (e.derivers p) (e'.derivers p)
  dangling : ∀ p, r.Related
    (throw (.error (.danglingReference (e.storeDir.print p))) : ExceptT Fault m (List StorePath))
    (throw (.error (.danglingReference (e'.storeDir.print p))))

theorem related_askIf {question : ExceptT Fault m (List StorePath)}
    {question' : ExceptT Fault m' (List StorePath)} (h : r.Related question question')
    (wanted : Bool) : r.Related (askIf wanted question) (askIf wanted question') := by
  cases wanted with
  | false => exact r.pure []
  | true => exact h

namespace Matches

variable (h : Matches r e e')

include h

theorem filterValid (ps : List StorePath) : r.Related (e.filterValid ps) (e'.filterValid ps) := by
  induction ps with
  | nil => exact r.pure []
  | cons p ps ih =>
    refine r.bind (h.isValid p) fun valid ↦ ?_
    split
    · exact r.bind ih fun rest ↦ r.pure (p :: rest)
    · exact ih

theorem validOutputs (drv : StorePath) : r.Related (e.validOutputs drv) (e'.validOutputs drv) :=
  r.bind (h.outputs drv) h.filterValid

theorem forwardEdges (p : StorePath) :
    r.Related (e.forwardEdges policy p) (e'.forwardEdges policy p) := by
  refine r.bind (h.pathInfo p) fun record ↦ ?_
  cases record with
  | none => exact h.dangling p
  | some info =>
    refine r.bind (related_askIf (h.validOutputs p) _) fun outputs ↦ ?_
    exact r.bind (related_askIf (h.filterValid _) _) fun derivers ↦ r.pure _

theorem reverseEdges (p : StorePath) :
    r.Related (e.reverseEdges policy p) (e'.reverseEdges policy p) := by
  refine r.bind (h.referrers p) fun referrers ↦ ?_
  refine r.bind (related_askIf (h.derivers p) _) fun derivers ↦ ?_
  exact r.bind (related_askIf (h.validOutputs p) _) fun outputs ↦ r.pure _

theorem edges (p : StorePath) : r.Related (e.edges policy p) (e'.edges policy p) := by
  rw [Engine.edges, Engine.edges]
  split
  · exact h.reverseEdges p
  · exact h.forwardEdges p

theorem explore (found : Increasing StorePath) (queue : List StorePath) :
    r.Related (e.explore policy found queue) (e'.explore policy found queue) := by
  induction found, queue using explore.induct with
  | case1 found =>
    rw [Engine.explore, Engine.explore]
    exact r.pure found
  | case2 found p queue ih =>
    rw [Engine.explore, Engine.explore]
    exact r.bind (h.edges p) ih

end Matches

end Engine

end NixStore
