import NixStore.Engine.Closure

/-!
# The graph of a store

The edges that a policy follows, stated for an engine whose answers do not change, and without the
search that finds them. An edge is there if the questions behind it are answered; whether other
questions fail does not matter to it.
-/

namespace NixStore.Engine

/-- An answer of an engine that does not change. -/
def Answers {α : Type} (question : ExceptT Fault Id α) (a : α) : Prop := question.run = .ok a

namespace Answers

variable {α β : Type} {x : ExceptT Fault Id α} {f : α → ExceptT Fault Id β} {a a' : α} {b : β}

theorem unique (h : Answers x a) (h' : Answers x a') : a = a' :=
  Except.ok.inj (h.symm.trans h')

@[simp] theorem pure_iff : Answers (pure a) a' ↔ a = a' :=
  ⟨fun h ↦ Except.ok.inj h, fun h ↦ congrArg Except.ok h⟩

@[simp] theorem throw_iff {cause : Fault} : Answers (throw cause) a ↔ False :=
  ⟨fun h ↦ Except.noConfusion rfl rfl (heq_of_eq h), False.elim⟩

theorem run_bind (h : Answers x a) (f : α → ExceptT Fault Id β) : (x >>= f).run = (f a).run := by
  change (x.run >>= ExceptT.bindCont f) = _
  rw [show x.run = .ok a from h]
  rfl

theorem bind_iff : Answers (x >>= f) b ↔ ∃ a, Answers x a ∧ Answers (f a) b := by
  constructor
  · intro h
    rcases hx : x.run with cause | a
    · have hfail : (x >>= f).run = .error cause := by
        change (x.run >>= ExceptT.bindCont f) = _
        rw [hx]
        rfl
      cases hfail.symm.trans h
    · exact ⟨a, hx, (run_bind hx f).symm.trans h⟩
  · rintro ⟨a, hx, hf⟩
    exact (run_bind hx f).trans hf

end Answers

/-- From one path to the next under a policy. -/
inductive Edge (e : Engine Id) (policy : ClosurePolicy) (p q : StorePath) : Prop where
  /-- To what the path's record refers to. -/
  | reference {info : PathInfo} (forward : policy.flip = false)
      (record : Answers (e.pathInfo p) (some info)) (member : q ∈ info.references)
  /-- To the valid outputs of a derivation. -/
  | output {qs : List StorePath} (forward : policy.flip = false) (wanted : policy.outputs)
      (derivation : p.isDerivation) (recorded : Answers (e.outputs p) qs) (member : q ∈ qs)
      (valid : Answers (e.isValid q) true)
  /-- To the deriver of a path, if it is valid. -/
  | deriver {info : PathInfo} (forward : policy.flip = false) (wanted : policy.derivers)
      (record : Answers (e.pathInfo p) (some info)) (member : info.deriver = some q)
      (valid : Answers (e.isValid q) true)
  /-- To what refers to the path. -/
  | referrer {qs : List StorePath} (flipped : policy.flip) (recorded : Answers (e.referrers p) qs)
      (member : q ∈ qs)
  /-- To the derivations that have the path as an output. -/
  | maker {qs : List StorePath} (flipped : policy.flip) (wanted : policy.outputs)
      (recorded : Answers (e.derivers p) qs) (member : q ∈ qs)
  /-- To the valid outputs of a derivation, in the direction of referrers. -/
  | product {qs : List StorePath} (flipped : policy.flip) (wanted : policy.derivers)
      (derivation : p.isDerivation) (recorded : Answers (e.outputs p) qs) (member : q ∈ qs)
      (valid : Answers (e.isValid q) true)

/-- What can be reached from a path in a number of edges. -/
inductive ReachableIn (e : Engine Id) (policy : ClosurePolicy) (root : StorePath) :
    Nat → StorePath → Prop where
  | root : ReachableIn e policy root 0 root
  | edge {n : Nat} {p q : StorePath} (reached : ReachableIn e policy root n p)
      (next : e.Edge policy p q) : ReachableIn e policy root (n + 1) q

/-- What can be reached from a path. -/
def Reachable (e : Engine Id) (policy : ClosurePolicy) (root p : StorePath) : Prop :=
  ∃ n, e.ReachableIn policy root n p

end NixStore.Engine
