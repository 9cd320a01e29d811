import NixStore.Proofs.Engine.Layers
import NixStore.Proofs.Engine.Relation

/-!
# A search ends

The loop of a search is one turn followed by the rest of the loop, so a search that is stopped can
be continued; what it comes to is the same. Each turn expands another one of the paths that were
found, and if the answers of an engine mention only some paths, then no others are ever found. So
after as many turns as there are such paths, and one for the root, nothing is left to be expanded,
unless the search has failed before.
-/

namespace NixStore.Engine

/-! ## The loop, turn by turn -/

section

variable {m : Type → Type} [Monad m] [LawfulMonad m] (e : Engine m) (policy : ClosurePolicy)

theorem explore_eq_turn (s : Search) : e.explore policy s.found s.queue = (do
    let s' ← e.turn policy s
    e.explore policy s'.found s'.queue) := by
  rw [turn]
  cases hqueue : s.queue with
  | nil => rw [pure_bind, hqueue]
  | cons p queue =>
    rw [explore, bind_assoc]
    simp only [pure_bind]
    rfl

theorem explore_eq_turns (n : Nat) (s : Search) : e.explore policy s.found s.queue = (do
    let s' ← e.turns policy n s
    e.explore policy s'.found s'.queue) := by
  induction n generalizing s with
  | zero => rw [turns, pure_bind]
  | succ n ih =>
    rw [turns, bind_assoc, explore_eq_turn]
    exact bind_congr ih

theorem closure_eq_searchFor (limit : Nat) (root : StorePath) : e.closure policy root = (do
    let s ← e.searchFor policy limit root
    e.explore policy s.found s.queue) := by
  rw [closure, searchFor, bind_assoc]
  refine bind_congr fun valid ↦ ?_
  split
  · exact explore_eq_turns e policy limit (.start root)
  · exact (ExceptT.bind_throw _).symm

theorem turns_of_queue_eq_nil {s : Search} (h : s.queue = []) (n : Nat) :
    e.turns policy n s = pure s := by
  induction n with
  | zero => rfl
  | succ n ih =>
    rw [turns, turn, h]
    simp only [pure_bind, ih]

end

/-! ## Properties of all answers -/

variable {τ : Type} {e : Engine (StateM τ)} {policy : ClosurePolicy} {known : List StorePath}
  {root p : StorePath} {unchanging : Engine Id}

namespace Always

variable {α β : Type} {x : ExceptT Fault (StateM τ) α} {f : α → ExceptT Fault (StateM τ) β}
  {holds holds' : α → Prop} {both : β → Prop}

theorem pure {a : α} (h : holds a) : Always (τ := τ) (pure a) holds := by
  rintro t _ ⟨⟩
  exact h

theorem throw (cause : Fault) : Always (τ := τ) (throw cause) holds := nofun

theorem mono (h : Always x holds) (himp : ∀ a, holds a → holds' a) : Always x holds' :=
  fun t a ha ↦ himp a (h t a ha)

theorem and (h : Always x holds) (h' : Always x holds') : Always x fun a ↦ holds a ∧ holds' a :=
  fun t a ha ↦ ⟨h t a ha, h' t a ha⟩

theorem bind (h : Always x holds) (h' : ∀ a, holds a → Always (f a) both) :
    Always (x >>= f) both := by
  intro t b hb
  rw [ExceptT.run_bind, StateT.run_bind] at hb
  rcases hx : x.run.run t with ⟨_ | a, t'⟩
  · rw [hx] at hb
    cases hb
  · rw [hx] at hb
    exact h' a (h t a (congrArg Prod.fst hx)) t' b hb

theorem of_rest (h : ∀ a, Always (f a) both) : Always (x >>= f) both :=
  bind (fun _ _ _ ↦ trivial : Always x fun _ ↦ True) fun a _ ↦ h a

theorem askIf {question : ExceptT Fault (StateM τ) (List StorePath)}
    (h : Always question (· ⊆ known)) (wanted : Bool) :
    Always (askIf wanted question) (· ⊆ known) := by
  cases wanted with
  | false => exact .pure (List.nil_subset known)
  | true => exact h

/-- Where one program goes on with the answer to a question, the other one goes on with the same. -/
theorem answers_bind {y : ExceptT Fault Id α} {g : α → ExceptT Fault Id β}
    (h : Always x (Answers y)) (h' : ∀ a, Always (f a) (Answers (g a))) :
    Always (x >>= f) (Answers (y >>= g)) :=
  h.bind fun a ha ↦ (h' a).mono fun _ hb ↦ Answers.bind_iff.2 ⟨a, ha, hb⟩

theorem answers_pure (a : α) : Always (τ := τ) (Pure.pure a) (Answers (Pure.pure a)) :=
  .pure (Answers.pure_iff.2 rfl)

end Always

/-! ## Neighbours -/

theorem always_filterValid (e : Engine (StateM τ)) (ps : List StorePath) :
    Always (e.filterValid ps) (· ⊆ ps) := by
  induction ps with
  | nil => exact .pure (List.nil_subset [])
  | cons p ps ih =>
    refine Always.of_rest fun valid ↦ ?_
    split
    · exact ih.bind fun qs hqs ↦ .pure (List.cons_subset_cons p hqs)
    · exact ih.mono fun qs hqs ↦ List.Subset.trans hqs (List.subset_cons_self p ps)

namespace MentionsOnly

variable (h : e.MentionsOnly known)

include h

theorem validOutputs (drv : StorePath) : Always (e.validOutputs drv) (· ⊆ known) :=
  (h.outputs drv).bind fun qs hqs ↦ (always_filterValid e qs).mono fun _ hsub ↦
    List.Subset.trans hsub hqs

theorem forwardEdges (p : StorePath) : Always (e.forwardEdges policy p) (· ⊆ known) := by
  refine ((h.references p).and (h.deriver p)).bind fun record hrecord ↦ ?_
  cases record with
  | none => exact .throw _
  | some info =>
    have hreferences : info.references ⊆ known := hrecord.1 info rfl
    have hderiver : info.deriver.toList ⊆ known := fun drv hdrv ↦
      hrecord.2 info rfl drv (Option.mem_toList.1 hdrv)
    have hfiltered := (always_filterValid e info.deriver.toList).mono fun _ hsub ↦
      List.Subset.trans hsub hderiver
    refine ((h.validOutputs p).askIf _).bind fun outputs houtputs ↦ ?_
    refine (hfiltered.askIf _).bind fun derivers hderivers ↦ .pure ?_
    refine List.append_subset.2 ⟨List.append_subset.2 ⟨?_, houtputs⟩, hderivers⟩
    exact List.Subset.trans List.filter_sublist.subset hreferences

theorem reverseEdges (p : StorePath) : Always (e.reverseEdges policy p) (· ⊆ known) := by
  refine (h.referrers p).bind fun referrers hreferrers ↦ ?_
  refine ((h.derivers p).askIf _).bind fun derivers hderivers ↦ ?_
  refine ((h.validOutputs p).askIf _).bind fun outputs houtputs ↦ .pure ?_
  refine List.append_subset.2 ⟨List.append_subset.2 ⟨?_, hderivers⟩, houtputs⟩
  exact List.Subset.trans List.filter_sublist.subset hreferrers

theorem edges (p : StorePath) : Always (e.edges policy p) (· ⊆ known) := by
  rw [Engine.edges]
  split
  · exact h.reverseEdges p
  · exact h.forwardEdges p

end MentionsOnly

/-- Answers that are those of programs which do not change, as a relation between programs. -/
def answering : ProgramRelation (StateM τ) Id where
  Related x y := Always x (Answers y)
  pure := Always.answers_pure
  bind := Always.answers_bind

namespace AnswersAs

variable (h : e.AnswersAs unchanging)

include h

theorem matches_answering : Matches answering e unchanging where
  pathInfo := h.pathInfo
  isValid := h.isValid
  referrers := h.referrers
  outputs := h.outputs
  derivers := h.derivers
  dangling _ := .throw _

/-- A path has the neighbours that it has in a graph which does not change. -/
theorem edges (p : StorePath) : Always (e.edges policy p) (Answers (unchanging.edges policy p)) :=
  h.matches_answering.edges p

end AnswersAs

/-! ## Turns -/

/-- What holds of a search and is kept by every expansion holds after any number of turns. -/
theorem Always.turns {told : StorePath → List StorePath → Prop} {kept : Search → Prop}
    (hedges : ∀ p, Always (e.edges policy p) (told p))
    (hexpand : ∀ {s p queue qs}, kept s → s.queue = p :: queue → told p qs →
      kept (s.expand p queue qs)) (n : Nat) {s : Search} (hs : kept s) :
    Always (e.turns policy n s) kept := by
  have hturn : ∀ s, kept s → Always (e.turn policy s) kept := fun s hs ↦ by
    rw [turn]
    cases hqueue : s.queue with
    | nil => exact .pure hs
    | cons p queue => exact (hedges p).bind fun qs hqs ↦ .pure (hexpand hs hqueue hqs)
  induction n generalizing s with
  | zero => exact .pure hs
  | succ n ih => exact (hturn s hs).bind fun s' hs' ↦ ih hs'

theorem always_length_turns (n : Nat) (s : Search) : Always (e.turns policy n s) fun s' ↦
    s'.queue = [] ∨ s'.turns.length = s.turns.length + n := by
  induction n generalizing s with
  | zero => exact .pure (.inr rfl)
  | succ n ih =>
    cases hqueue : s.queue with
    | nil =>
      rw [turns_of_queue_eq_nil e policy hqueue]
      exact .pure (.inl hqueue)
    | cons p queue =>
      have hturn : Always (e.turn policy s) fun s' ↦ s'.turns.length = s.turns.length + 1 := by
        rw [turn, hqueue]
        refine Always.of_rest fun qs ↦ .pure ?_
        rw [Search.expand, List.length_append, List.length_singleton]
      refine hturn.bind fun s' hs' ↦ (ih s').mono fun s'' ↦ Or.imp_right fun hlength ↦ ?_
      rw [hlength, hs', Nat.add_assoc, Nat.add_comm 1 n]

theorem Always.searchFor {holds : Search → Prop} {limit : Nat}
    (h : Always (e.turns policy limit (.start root)) holds) :
    Always (e.searchFor policy limit root) holds := by
  refine Always.of_rest fun valid ↦ ?_
  split
  · exact h
  · exact .throw _

theorem always_layered (e : Engine (StateM τ)) (policy : ClosurePolicy) (limit : Nat)
    (root : StorePath) : Always (e.searchFor policy limit root) fun s ↦
      ∃ distance, s.Layered root distance := by
  have hedges : ∀ p, Always (e.edges policy p) fun _ ↦ True := fun _ _ _ _ ↦ trivial
  refine (Always.turns hedges ?_ limit ⟨_, Search.layered_start root⟩).searchFor
  rintro s p queue qs ⟨distance, hs⟩ hqueue -
  exact ⟨_, hs.expand hqueue qs⟩

/-- A search is told the neighbours in the graph of an engine that does not change, if that is how
its own engine answers. -/
theorem AnswersAs.told (h : e.AnswersAs unchanging) (limit : Nat) (root : StorePath) :
    Always (e.searchFor policy limit root) fun s ↦
      ∀ p qs, (p, qs) ∈ s.turns → Answers (unchanging.edges policy p) qs := by
  refine (Always.turns h.edges (fun {s p queue qs} hs _ hqs p' qs' hturn ↦ ?_) limit
    fun p qs hturn ↦ absurd hturn List.not_mem_nil).searchFor
  rcases List.mem_append.1 hturn with hturn | hturn
  · exact hs p' qs' hturn
  · obtain ⟨rfl, rfl⟩ := Prod.mk.inj (List.mem_singleton.1 hturn)
    exact hqs

/-- A search has ended after one turn for each path that may be found. -/
theorem always_queue_eq_nil (h : e.MentionsOnly known) {limit : Nat}
    (hlimit : known.length < limit) :
    Always (e.searchFor policy limit root) fun s ↦ s.queue = [] := by
  have hfound : Always (e.turns policy limit (.start root)) fun s ↦
      ∀ p ∈ s.found, p ∈ root :: known := by
    refine Always.turns h.edges (fun {s p queue qs} hs hqueue hqs q hq ↦ ?_) limit fun p hp ↦ ?_
    · rcases mem_discover_fst.1 hq with hq | hq
      · exact hs q hq
      · exact List.mem_cons_of_mem root (hqs hq)
    · rw [Increasing.mem_singleton.1 hp]
      exact List.mem_cons_self
  have hall := (always_layered e policy limit root).and
    (hfound.and (always_length_turns limit (.start root))).searchFor
  refine hall.mono fun s ↦ ?_
  rintro ⟨⟨distance, hlayered⟩, hfound, hnil | hlength⟩
  · exact hnil
  · have hle := hlayered.length_le hfound
    rw [hlength, List.length_cons] at hle
    exact List.length_eq_zero_iff.1 (by rw [Search.start, List.length_nil] at hle; omega)

end NixStore.Engine
