import Mathlib.Data.List.Perm.Subperm
import Mathlib.Order.Bounds.Basic
import NixStore.Engine.Search
import NixStore.Proofs.Engine.Reachability

/-!
# A search goes by distance

Every path that is found gets a number when it is found, one more than that of the path which led
to it. The paths that were expanded and those in the queue, in their order, have increasing
numbers, and in the queue there are at most two different ones; so a turn puts the greatest number
behind the queue. From this follows that no step leads to a number which is greater by more than
one, also not a step to a path that was found long ago, and therefore that the numbers are the
distances from the root.

This is so whatever neighbours a search is told; it need not be told the same by an engine when it
asks again.
-/

namespace NixStore

theorem nodup_discover_snd (found : Increasing StorePath) (ps : List StorePath) :
    (discover found ps).2.Nodup := by
  induction ps generalizing found with
  | nil => exact List.nodup_nil
  | cons p ps ih =>
    rw [discover]
    split
    · exact ih found
    · refine List.nodup_cons.2 ⟨fun hp ↦ ?_, ih _⟩
      exact (mem_discover_snd.1 hp).1 (Increasing.mem_insert.2 (.inl rfl))

namespace Search

variable {s : Search} {root p q : StorePath} {queue qs : List StorePath} {n : Nat}
  {distance : StorePath → Nat}

theorem expanded_expand : (s.expand p queue qs).expanded = s.expanded ++ [p] := List.map_append

theorem mem_found_expand : q ∈ (s.expand p queue qs).found ↔ q ∈ s.found ∨ q ∈ qs :=
  mem_discover_fst

/-- What is new goes behind everything. -/
theorem expanded_append_queue_expand (hqueue : s.queue = p :: queue) :
    (s.expand p queue qs).expanded ++ (s.expand p queue qs).queue
      = (s.expanded ++ s.queue) ++ (discover s.found qs).2 := by
  rw [expanded_expand, hqueue, List.append_assoc, List.append_assoc]
  rfl

theorem leads_expand_iff {a b : StorePath} :
    (s.expand p queue qs).Leads a b ↔ s.Leads a b ∨ a = p ∧ b ∈ qs := by
  simp only [Leads, expand, List.mem_append, List.mem_singleton, Prod.mk.injEq, or_and_right,
    exists_or, and_assoc, exists_and_left, exists_eq_left]

theorem Leads.mem_expanded (h : s.Leads p q) : p ∈ s.expanded := by
  obtain ⟨qs, hturn, -⟩ := h
  exact List.mem_map_of_mem hturn

theorem ReachesIn.expand {a : StorePath} (h : s.ReachesIn root n a) :
    (s.expand p queue qs).ReachesIn root n a := by
  induction h with
  | root => exact .root
  | step _ leads ih => exact .step ih (leads_expand_iff.2 (.inl leads))

/-- Paths are expanded in the order of their distances from the root. -/
def NearestFirst (s : Search) (reaches : Nat → StorePath → Prop) : Prop :=
  ∃ distance : StorePath → Nat, s.expanded.Pairwise (fun p q ↦ distance p ≤ distance q) ∧
    ∀ p ∈ s.found, IsLeast {n | reaches n p} (distance p)

/-- The paths found so far, in the order in which they are expanded, with their distances. -/
structure Layered (root : StorePath) (distance : StorePath → Nat) (s : Search) : Prop where
  mem_found : ∀ p, p ∈ s.found ↔ p ∈ s.expanded ++ s.queue
  nodup : (s.expanded ++ s.queue).Nodup
  ordered : (s.expanded ++ s.queue).Pairwise fun p q ↦ distance p ≤ distance q
  /-- The queue holds the rest of one distance and some of the next one. -/
  near : ∀ p ∈ s.queue, ∀ q ∈ s.queue, distance q ≤ distance p + 1
  root_mem : root ∈ s.found
  root_eq : distance root = 0
  reaches : ∀ p ∈ s.found, s.ReachesIn root (distance p) p
  leads : ∀ p q, s.Leads p q → q ∈ s.found ∧ distance q ≤ distance p + 1

/-- The distances once a path was expanded: what is new is one step farther away. -/
def further (s : Search) (distance : StorePath → Nat) (p q : StorePath) : Nat :=
  if q ∈ s.found then distance q else distance p + 1

theorem further_of_mem (hq : q ∈ s.found) : s.further distance p q = distance q := if_pos hq

theorem further_of_not_mem (hq : q ∉ s.found) : s.further distance p q = distance p + 1 :=
  if_neg hq

theorem layered_start (root : StorePath) : (start root).Layered root fun _ ↦ 0 where
  mem_found _ := Increasing.mem_singleton.trans List.mem_singleton.symm
  nodup := List.pairwise_singleton _ root
  ordered := List.pairwise_singleton _ root
  near _ _ _ _ := Nat.zero_le _
  root_mem := Increasing.mem_singleton.2 rfl
  root_eq := rfl
  reaches p hp := by
    obtain rfl := Increasing.mem_singleton.1 hp
    exact .root
  leads p q h := by
    obtain ⟨qs, hturn, -⟩ := h
    exact absurd hturn List.not_mem_nil

namespace Layered

/-- The queue starts with the least distance. -/
theorem le_of_mem_queue (h : s.Layered root distance) (hqueue : s.queue = p :: queue)
    (hq : q ∈ queue) : distance p ≤ distance q := by
  have hordered := h.ordered
  rw [hqueue] at hordered
  exact (List.pairwise_cons.1 (List.pairwise_append.1 hordered).2.1).1 q hq

/-- Nothing is more than one step farther away than what is expanded next. -/
theorem le_succ (h : s.Layered root distance) (hqueue : s.queue = p :: queue)
    (hq : q ∈ s.found) : distance q ≤ distance p + 1 := by
  have hp : p ∈ s.queue := hqueue ▸ List.mem_cons_self
  rcases List.mem_append.1 ((h.mem_found q).1 hq) with hq | hq
  · exact Nat.le_succ_of_le ((List.pairwise_append.1 h.ordered).2.2 q hq p hp)
  · exact h.near p hp q hq

theorem further_le (h : s.Layered root distance) (hqueue : s.queue = p :: queue) (q : StorePath) :
    s.further distance p q ≤ distance p + 1 := by
  rw [further]
  split
  · next hfound => exact h.le_succ hqueue hfound
  · exact Nat.le_refl _

theorem le_further (h : s.Layered root distance) (hqueue : s.queue = p :: queue)
    (hq : q ∈ queue ++ (discover s.found qs).2) : distance p ≤ s.further distance p q := by
  rw [further]
  split
  · next hfound =>
    rcases List.mem_append.1 hq with hq | hq
    · exact h.le_of_mem_queue hqueue hq
    · exact absurd hfound (mem_discover_snd.1 hq).1
  · exact Nat.le_succ _

theorem expand (h : s.Layered root distance) (hqueue : s.queue = p :: queue)
    (qs : List StorePath) : (s.expand p queue qs).Layered root (s.further distance p) := by
  have hp : p ∈ s.found :=
    (h.mem_found p).2 (List.mem_append_right _ (hqueue ▸ List.mem_cons_self))
  have hnew : ∀ q ∈ (discover s.found qs).2, q ∉ s.found := fun q hq ↦ (mem_discover_snd.1 hq).1
  constructor
  case mem_found =>
    intro q
    rw [expanded_append_queue_expand hqueue, List.mem_append, ← h.mem_found, mem_discover_snd,
      mem_found_expand]
    by_cases hfound : q ∈ s.found <;> simp [hfound]
  case nodup =>
    rw [expanded_append_queue_expand hqueue]
    refine List.nodup_append.2 ⟨h.nodup, nodup_discover_snd _ _, ?_⟩
    rintro a ha b hb rfl
    exact hnew a hb ((h.mem_found a).2 ha)
  case ordered =>
    rw [expanded_append_queue_expand hqueue]
    refine List.pairwise_append.2 ⟨?_, ?_, fun a ha b hb ↦ ?_⟩
    · refine h.ordered.imp_of_mem fun {a b} ha hb hab ↦ ?_
      rwa [further_of_mem ((h.mem_found a).2 ha), further_of_mem ((h.mem_found b).2 hb)]
    · refine List.pairwise_of_forall_mem_list fun a ha b hb ↦ ?_
      rw [further_of_not_mem (hnew a ha), further_of_not_mem (hnew b hb)]
    · rw [further_of_not_mem (hnew b hb)]
      exact h.further_le hqueue a
  case near =>
    intro a ha b hb
    exact (h.further_le hqueue b).trans (Nat.succ_le_succ (h.le_further hqueue ha))
  case root_mem => exact mem_found_expand.2 (.inl h.root_mem)
  case root_eq => rw [further_of_mem h.root_mem, h.root_eq]
  case reaches =>
    intro q hq
    by_cases hfound : q ∈ s.found
    · rw [further_of_mem hfound]
      exact (h.reaches q hfound).expand
    · rw [further_of_not_mem hfound]
      have hq := (mem_found_expand.1 hq).resolve_left hfound
      exact .step (h.reaches p hp).expand (leads_expand_iff.2 (.inr ⟨rfl, hq⟩))
  case leads =>
    intro a b hleads
    rcases leads_expand_iff.1 hleads with hleads | ⟨rfl, hb⟩
    · have ha := (h.mem_found a).2 (List.mem_append_left _ hleads.mem_expanded)
      obtain ⟨hb, hle⟩ := h.leads a b hleads
      rw [further_of_mem ha, further_of_mem hb]
      exact ⟨mem_found_expand.2 (.inl hb), hle⟩
    · rw [further_of_mem hp]
      exact ⟨mem_found_expand.2 (.inr hb), h.further_le hqueue b⟩

theorem nearestFirst (h : s.Layered root distance) : s.NearestFirst (s.ReachesIn root) := by
  refine ⟨distance, (List.pairwise_append.1 h.ordered).1, fun p hp ↦ ⟨h.reaches p hp, ?_⟩⟩
  intro n hn
  clear hp
  induction hn with
  | root => exact h.root_eq.le
  | step _ leads ih => exact (h.leads _ _ leads).2.trans (Nat.succ_le_succ ih)

/-- If a search has ended and was told the neighbours in a graph, the numbers are the distances in
that graph. -/
theorem nearestFirst_of_told (h : s.Layered root distance) (hqueue : s.queue = [])
    {e : Engine Id} {policy : ClosurePolicy}
    (htold : ∀ p qs, (p, qs) ∈ s.turns → Engine.Answers (e.edges policy p) qs) :
    s.NearestFirst (e.ReachableIn policy root) := by
  refine ⟨distance, (List.pairwise_append.1 h.ordered).1, fun p hp ↦ ⟨?_, fun n hn ↦ ?_⟩⟩
  · have hreaches := h.reaches p hp
    generalize distance p = n at hreaches
    clear hp
    induction hreaches with
    | root => exact .root
    | step _ leads ih =>
      obtain ⟨qs, hturn, hq⟩ := leads
      exact .edge ih ((Engine.mem_edges (htold _ qs hturn)).1 hq)
  · suffices p ∈ s.found ∧ distance p ≤ n from this.2
    clear hp
    induction hn with
    | root => exact ⟨h.root_mem, h.root_eq.le⟩
    | @edge n p q _ hedge ih =>
      obtain ⟨hp, hle⟩ := ih
      have hexpanded := (h.mem_found p).1 hp
      rw [hqueue, List.append_nil] at hexpanded
      obtain ⟨⟨_, qs⟩, hturn, rfl⟩ := List.mem_map.1 hexpanded
      rcases (Engine.mem_edges (htold _ qs hturn)).2 hedge with rfl | hq
      · exact ⟨hp, Nat.le_succ_of_le hle⟩
      · obtain ⟨hfound, hstep⟩ := h.leads _ q ⟨qs, hturn, hq⟩
        exact ⟨hfound, hstep.trans (Nat.succ_le_succ hle)⟩

/-- The number of turns is at most that of the paths which can be found. -/
theorem length_le (h : s.Layered root distance) {known : List StorePath}
    (hknown : ∀ p ∈ s.found, p ∈ known) : s.turns.length + s.queue.length ≤ known.length := by
  have hsub : s.expanded ++ s.queue ⊆ known := fun p hp ↦ hknown p ((h.mem_found p).2 hp)
  have hle := (h.nodup.subperm hsub).length_le
  rwa [List.length_append, expanded, List.length_map] at hle

end Layered

end Search

end NixStore
