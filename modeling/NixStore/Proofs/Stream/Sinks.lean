import NixStore.Stream.Producer

/-!
# Sinks that take everything

A sink may take less than it is given at once, and is asked again for the rest. One that never
fails, and never takes nothing, ends up with all bytes in their order, in whatever pieces.
-/

namespace NixStore

variable {σ : Type}

/-- A sink takes everything if each call takes some of the bytes that it is given; `taken` is what
the sink has. -/
def Sink.TakesAll (sink : Sink (StateM σ)) (taken : σ → Bytes) : Prop :=
  ∀ data s, data ≠ [] → ∃ n s', n < data.length ∧
    (sink.write data).run s = (.ok (n + 1), s') ∧ taken s' = taken s ++ data.take (n + 1)

/-- A sink that keeps what it is given, all of it at once. -/
def Sink.collect : Sink (StateM Bytes) where
  write data := do
    modify (· ++ data)
    return .ok data.length
  flush := return .ok ()

theorem Sink.takesAll_collect : Sink.collect.TakesAll id := by
  intro data s hdata
  have hpos := List.length_pos_iff.2 hdata
  refine ⟨data.length - 1, s ++ data, Nat.sub_lt hpos Nat.one_pos, ?_, ?_⟩
  · rw [Nat.sub_add_cancel hpos]
    rfl
  · rw [Nat.sub_add_cancel hpos, List.take_length]
    rfl

namespace Producer

theorem run_writeAll {sink : Sink (StateM σ)} {taken : σ → Bytes} (h : sink.TakesAll taken)
    (data : Bytes) (s : σ) :
    ∃ s', ((writeAll data).run sink).run s = (.ok (), s') ∧ taken s' = taken s ++ data := by
  induction data using writeAll.induct generalizing s with
  | case1 =>
    rw [writeAll]
    exact ⟨s, rfl, (List.append_nil _).symm⟩
  | case2 b rest ih =>
    obtain ⟨n, s₁, hn, hwrite, htaken⟩ := h (b :: rest) s (List.cons_ne_nil b rest)
    obtain ⟨s₂, hrest, htaken'⟩ := ih n s₁
    refine ⟨s₂, ?_, ?_⟩
    · rw [writeAll, run, StateT.run_bind, hwrite]
      exact hrest
    · rw [htaken', htaken, List.append_assoc, List.take_succ_cons, List.cons_append,
        List.take_append_drop]

end Producer

end NixStore
