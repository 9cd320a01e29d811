import Mathlib.Data.Fintype.EquivFin
import NixStore.SetupGuard.Openers

/-!
# Set-up until the first success

Openers share a guard behind a lock, and take their turns in any order. Because the lock is held
while a set-up runs, every run is one of calls made one after the other, in the order in which they
return. Along such a sequence the guard is a summary of its past: a key needs its set-up exactly as
long as no call with this key has run one that succeeded. From this follows what each call does,
whatever the set-ups of the others came to and however often the lock was poisoned.

No call is left waiting. Whoever runs a set-up ends it at the next turn, and so under a fair
schedule of finitely many openers all calls return.
-/

namespace NixStore

namespace SetupGuard

variable {κ ε : Type} [DecidableEq κ]

/-! ## One call -/

theorem needs_fresh (k : κ) : (fresh : SetupGuard κ).needs k = true := rfl

theorem runOnce_of_not_needs {g : SetupGuard κ} {key : κ} (h : g.needs key = false)
    (setup : Except ε Unit) : g.runOnce key setup = (.ok (), g) := by
  simp [runOnce, h]

theorem runOnce_ok {g : SetupGuard κ} {key : κ} (h : g.needs key = true) :
    g.runOnce key (.ok () : Except ε Unit) = (.ok (), ⟨key :: g.succeeded⟩) := by
  simp [runOnce, h]

theorem runOnce_error (g : SetupGuard κ) (key : κ) (e : ε) :
    (g.runOnce key (.error e)).2 = g := by
  cases h : g.needs key <;> simp [runOnce, h]

theorem runOnce_fst (g : SetupGuard κ) (key : κ) (setup : Except ε Unit) :
    (g.runOnce key setup).1 = if g.needs key then setup else .ok () := by
  cases h : g.needs key <;> rcases setup with _ | ⟨⟩ <;> simp [runOnce, h]

/-- A key needs its set-up after a call if it did before, unless the call has set it up. -/
theorem needs_runOnce (g : SetupGuard κ) (key : κ) (setup : Except ε Unit) (k : κ) :
    (g.runOnce key setup).2.needs k = true ↔
      g.needs k = true ∧ ¬(key = k ∧ g.needs key = true ∧ setup.isOk = true) := by
  cases hneeds : g.needs key with
  | false => simp [runOnce_of_not_needs hneeds]
  | true =>
    rcases setup with e | ⟨⟩
    · simp [runOnce_error, Except.isOk, Except.toBool]
    · rw [runOnce_ok hneeds]
      simp [needs, Except.isOk, Except.toBool, and_comm, @eq_comm _ key k]

end SetupGuard

/-! ## Calls one after the other -/

/-- The calls of these returns, made one after the other on a fresh guard, return like this and
leave this guard. -/
inductive OneByOne {ι κ ε : Type} [DecidableEq κ] :
    List (SetupReturn ι κ ε) → SetupGuard κ → Prop where
  | fresh : OneByOne [] .fresh
  | call {returned : List (SetupReturn ι κ ε)} {g : SetupGuard κ} (h : OneByOne returned g) (i : ι)
      (c : SetupCall κ ε) :
    OneByOne (returned ++ [⟨i, c, g.needs c.key, (g.runOnce c.key c.setup).1⟩])
      (g.runOnce c.key c.setup).2

namespace OneByOne

variable {ι κ ε : Type} [DecidableEq κ] {returned : List (SetupReturn ι κ ε)} {g : SetupGuard κ}

theorem eq_after (h : OneByOne returned g) : g = .after (returned.map (·.call)) := by
  induction h with
  | fresh => rfl
  | call h i c ih =>
    rw [SetupGuard.after, List.map_append, List.foldl_append, ← SetupGuard.after, ← ih]
    rfl

/-- **The guard is a summary of its past.** -/
theorem needs_iff (h : OneByOne returned g) (k : κ) :
    g.needs k = true ↔ ∀ a ∈ returned, a.call.key = k → a.succeeded = false := by
  induction h with
  | fresh => simp [SetupGuard.needs_fresh]
  | @call returned g _ i c ih =>
    rw [SetupGuard.needs_runOnce, ih]
    simp only [List.mem_append, List.mem_singleton, or_imp, forall_and, forall_eq,
      SetupReturn.succeeded, Bool.and_eq_false_iff, not_and, Bool.not_eq_true]
    refine and_congr_right fun _ ↦ forall_congr' fun _ ↦ ?_
    cases g.needs c.key <;> simp

theorem exists_before (h : OneByOne returned g) {before later : List (SetupReturn ι κ ε)}
    {a : SetupReturn ι κ ε} (heq : returned = before ++ a :: later) :
    ∃ g, OneByOne before g ∧ a.ran = g.needs a.call.key ∧
      a.result = (g.runOnce a.call.key a.call.setup).1 := by
  induction h generalizing later with
  | fresh => simp at heq
  | @call returned g h i c ih =>
    rcases List.eq_nil_or_concat later with rfl | ⟨later, last, rfl⟩
    · obtain ⟨rfl, hlast⟩ := List.append_inj' heq rfl
      obtain rfl := List.singleton_inj.1 hlast
      exact ⟨g, h, rfl, rfl⟩
    · rw [List.concat_eq_append, ← List.cons_append, ← List.append_assoc] at heq
      exact ih (List.append_inj' heq rfl).1

/-- A call runs its set-up exactly if none with its key has succeeded before, and returns what the
set-up comes to. -/
theorem call_cases (h : OneByOne returned g) {before later : List (SetupReturn ι κ ε)}
    {a : SetupReturn ι κ ε} (heq : returned = before ++ a :: later) :
    a.result = ((SetupGuard.after (before.map (·.call))).runOnce a.call.key a.call.setup).1 ∧
      (a.ran = true ↔ ∀ b ∈ before, b.call.key = a.call.key → b.succeeded = false) ∧
      a.result = if a.ran then a.call.setup else .ok () := by
  obtain ⟨g, hbefore, hran, hresult⟩ := h.exists_before heq
  rw [← hbefore.eq_after, hran, ← hbefore.needs_iff, hresult, SetupGuard.runOnce_fst]
  exact ⟨rfl, Iff.rfl, rfl⟩

/-- No set-up succeeds after one of the same key. -/
theorem pairwise_succeeded (h : OneByOne returned g) :
    returned.Pairwise fun a b ↦ a.call.key = b.call.key → a.succeeded = true →
      b.succeeded = false := by
  induction h with
  | fresh => exact .nil
  | @call returned g h i c ih =>
    refine List.pairwise_append.2 ⟨ih, List.pairwise_singleton _ _, ?_⟩
    intro a ha b hb hkey hsuccess
    obtain rfl := List.mem_singleton.1 hb
    have hneeds : g.needs c.key = false := by
      refine Bool.eq_false_iff.2 fun hneeds ↦ ?_
      rw [(h.needs_iff _).1 hneeds a ha hkey] at hsuccess
      cases hsuccess
    rw [SetupReturn.succeeded, hneeds, Bool.false_and]

theorem length_succeeded_le (h : OneByOne returned g) (k : κ) :
    (returned.filter fun a ↦ a.call.key = k && a.succeeded).length ≤ 1 := by
  have hpairwise := h.pairwise_succeeded.filter fun a ↦ a.call.key = k && a.succeeded
  have hmem : ∀ a ∈ returned.filter fun a ↦ a.call.key = k && a.succeeded,
      a.call.key = k ∧ a.succeeded = true := fun a ha ↦ by
    simpa using (List.mem_filter.1 ha).2
  generalize returned.filter (fun a ↦ a.call.key = k && a.succeeded) = successes at *
  rcases successes with _ | ⟨a, _ | ⟨b, rest⟩⟩
  · exact Nat.zero_le 1
  · exact Nat.le_refl 1
  · obtain ⟨hka, hsa⟩ := hmem a List.mem_cons_self
    obtain ⟨hkb, hsb⟩ := hmem b (List.mem_cons_of_mem _ List.mem_cons_self)
    have hfalse := (List.pairwise_cons.1 hpairwise).1 b List.mem_cons_self (hka.trans hkb.symm) hsa
    rw [hsb] at hfalse
    cases hfalse

end OneByOne

namespace Openers

variable {ι κ ε : Type} [DecidableEq ι] [DecidableEq κ]

omit [DecidableEq κ] in
theorem hasReturned_iff {s : Openers ι κ ε} {i : ι} :
    s.hasReturned i = true ↔ i ∈ s.returned.map (·.opener) := by
  simp [hasReturned]

/-! ## One turn -/

theorem turn_cases (s : Openers ι κ ε) (i : ι) :
    s.turn i = s ∨
    (s.running = none ∧ s.hasReturned i = false ∧ s.lock.value.needs (s.calls i).key = true ∧
      s.turn i = { s with running := some i }) ∨
    (s.running = none ∧ s.hasReturned i = false ∧ s.lock.value.needs (s.calls i).key = false ∧
      s.turn i = { s with returned := s.returned ++ [⟨i, s.calls i, false, .ok ()⟩] }) ∨
    (s.running = some i ∧ s.turn i = s.leave i) := by
  cases hrunning : s.running with
  | some j =>
    by_cases hij : i = j
    · exact .inr (.inr (.inr ⟨by rw [hij], by simp [turn, hrunning, hij]⟩))
    · exact .inl (by simp [turn, hrunning, hij])
  | none =>
    cases hreturned : s.hasReturned i with
    | true => exact .inl (by simp [turn, hrunning, hreturned])
    | false =>
      cases hneeds : s.lock.value.needs (s.calls i).key with
      | true =>
        exact .inr (.inl ⟨rfl, rfl, rfl, by
          simp [turn, hrunning, hreturned, enter, Lock.found_eq, hneeds]⟩)
      | false =>
        exact .inr (.inr (.inl ⟨rfl, rfl, rfl, by
          simp [turn, hrunning, hreturned, enter, Lock.found_eq, hneeds]⟩))

omit [DecidableEq ι] in
theorem leave_value {s : Openers ι κ ε} {i : ι}
    (h : s.lock.value.needs (s.calls i).key = true) :
    ((s.calls i).setup, (s.leave i).lock.value)
      = s.lock.value.runOnce (s.calls i).key (s.calls i).setup := by
  rcases hsetup : (s.calls i).setup with (cause | message) | ⟨⟩
  · simp [leave, hsetup, SetupGuard.runOnce, h]
  · simp [leave, hsetup, SetupGuard.runOnce, h]
  · simp [leave, hsetup, SetupGuard.runOnce_ok h]

/-- What holds after any number of turns. -/
structure Orderly (s : Openers ι κ ε) : Prop where
  /-- The lock is held by an opener that has something to run and has not returned. -/
  running : ∀ i, s.running = some i →
    s.hasReturned i = false ∧ s.lock.value.needs (s.calls i).key = true
  oneByOne : OneByOne s.returned s.lock.value
  call_eq : ∀ a ∈ s.returned, a.call = s.calls a.opener
  nodup : (s.returned.map (·.opener)).Nodup
  poisoned : s.lock.poisoned = true ↔
    ∃ a ∈ s.returned, ∃ message, a.result = .error (.panicked message)

variable {s : Openers ι κ ε} {i : ι}

theorem orderly_start (calls : ι → SetupCall κ ε) : Orderly (start calls) where
  running _ h := by cases h
  oneByOne := .fresh
  call_eq _ h := by cases h
  nodup := .nil
  poisoned := by simp [start]

theorem Orderly.append (h : Orderly s) (hi : s.hasReturned i = false)
    {lock : Lock (SetupGuard κ)} {result : Except (SetupFault ε) Unit}
    (hcall : (result, lock.value) = s.lock.value.runOnce (s.calls i).key (s.calls i).setup)
    (hpoisoned : lock.poisoned = true ↔
      s.lock.poisoned = true ∨ ∃ message, result = .error (.panicked message)) :
    Orderly ⟨s.calls, lock, none,
      s.returned ++ [⟨i, s.calls i, s.lock.value.needs (s.calls i).key, result⟩]⟩ where
  running _ hrunning := by cases hrunning
  oneByOne := by
    have hmore := h.oneByOne.call i (s.calls i)
    rwa [← hcall] at hmore
  call_eq a ha := by
    rcases List.mem_append.1 ha with ha | ha
    · exact h.call_eq a ha
    · rw [List.mem_singleton.1 ha]
  nodup := by
    have hnew : i ∉ s.returned.map (·.opener) := fun hmem ↦ by
      rw [hasReturned_iff.2 hmem] at hi
      cases hi
    rw [List.map_append, List.map_singleton, ← List.concat_eq_append]
    exact (List.nodup_concat _ _).2 ⟨hnew, h.nodup⟩
  poisoned := by
    rw [hpoisoned, h.poisoned]
    simp only [List.mem_append, List.mem_singleton, or_and_right, exists_or, exists_eq_left]

omit [DecidableEq ι] [DecidableEq κ] in
theorem leave_poisoned (s : Openers ι κ ε) (i : ι) :
    (s.leave i).lock.poisoned = true ↔ s.lock.poisoned = true ∨
      ∃ message, (s.calls i).setup = .error (.panicked message) := by
  rcases hsetup : (s.calls i).setup with (cause | message) | ⟨⟩ <;> simp [leave, hsetup]

theorem Orderly.turn (h : Orderly s) (i : ι) : Orderly (s.turn i) := by
  rcases s.turn_cases i with hturn | ⟨-, hi, hneeds, hturn⟩ | ⟨hfree, hi, hneeds, hturn⟩ |
    ⟨hrunning, hturn⟩ <;> rw [hturn]
  · exact h
  · refine { h with running := fun j hj ↦ ?_ }
    obtain rfl := Option.some.inj hj
    exact ⟨hi, hneeds⟩
  · have hcall := SetupGuard.runOnce_of_not_needs hneeds (s.calls i).setup
    have hskip := h.append hi hcall.symm (by simp)
    rwa [hneeds, ← hfree] at hskip
  · obtain ⟨hi, hneeds⟩ := h.running i hrunning
    have hrun := h.append hi (leave_value hneeds) (s.leave_poisoned i)
    rwa [hneeds] at hrun

theorem Orderly.after (h : Orderly s) (schedule : Nat → ι) (n : Nat) :
    Orderly (s.after schedule n) := by
  induction n with
  | zero => exact h
  | succ n ih => exact ih.turn _

theorem calls_turn (s : Openers ι κ ε) (i : ι) : (s.turn i).calls = s.calls := by
  rcases s.turn_cases i with h | ⟨-, -, -, h⟩ | ⟨-, -, -, h⟩ | ⟨-, h⟩ <;> rw [h]
  rfl

theorem calls_after (s : Openers ι κ ε) (schedule : Nat → ι) (n : Nat) :
    (s.after schedule n).calls = s.calls := by
  induction n with
  | zero => rfl
  | succ n ih => rw [after, calls_turn, ih]

theorem returned_turn (s : Openers ι κ ε) (i : ι) :
    (s.turn i).returned = s.returned ∨ ∃ a, (s.turn i).returned = s.returned ++ [a] := by
  rcases s.turn_cases i with h | ⟨-, -, -, h⟩ | ⟨-, -, -, h⟩ | ⟨-, h⟩ <;> rw [h]
  · exact .inl rfl
  · exact .inl rfl
  · exact .inr ⟨_, rfl⟩
  · exact .inr ⟨_, rfl⟩

/-- A turn changes what a key needs only if a set-up of this key has succeeded in it. -/
theorem Orderly.needs_turn (h : Orderly s) (i : ι) (k : κ) :
    (s.turn i).lock.value.needs k = s.lock.value.needs k ∨
      ∃ a, (s.turn i).returned = s.returned ++ [a] ∧ a.call.key = k ∧ a.succeeded = true := by
  have hbefore := h.oneByOne.needs_iff k
  have hafter := (h.turn i).oneByOne.needs_iff k
  rcases s.returned_turn i with hsame | ⟨a, hadded⟩
  · rw [hsame] at hafter
    exact .inl (Bool.eq_iff_iff.2 (hafter.trans hbefore.symm))
  · by_cases ha : a.call.key = k ∧ a.succeeded = true
    · exact .inr ⟨a, hadded, ha⟩
    · refine .inl (Bool.eq_iff_iff.2 (hafter.trans (Iff.trans ?_ hbefore.symm)))
      have hnone : a.call.key = k → a.succeeded = false := by simpa using ha
      simp only [hadded, List.mem_append, List.mem_singleton, or_imp, forall_and, forall_eq]
      exact and_iff_left hnone

/-! ## The end of all calls -/

omit [DecidableEq ι] in
theorem enter_ne (h : s.running = none) (i : ι) : s.enter i ≠ s := by
  rw [enter]
  split
  · intro heq
    cases h.symm.trans (congrArg running heq).symm
  · intro heq
    have hlength := congrArg (·.returned.length) heq
    simp at hlength

/-- After the `n`-th turn one more call returns, at once or later. -/
def ReturnsFrom (s : Openers ι κ ε) (schedule : Nat → ι) (n : Nat) : Prop :=
  ∃ m, n < m ∧ (s.after schedule n).returned.length < (s.after schedule m).returned.length

variable {schedule : Nat → ι} {n : Nat}

theorem ReturnsFrom.of_succ (h : s.ReturnsFrom schedule (n + 1)) : s.ReturnsFrom schedule n := by
  obtain ⟨m, hm, hlt⟩ := h
  refine ⟨m, Nat.lt_of_succ_lt hm, Nat.lt_of_le_of_lt ?_ hlt⟩
  rw [after]
  rcases (s.after schedule n).returned_turn (schedule n) with h | ⟨a, h⟩ <;> simp [h]

theorem returnsFrom_of_running (fair : Fair schedule)
    (hrunning : (s.after schedule n).running = some i) : s.ReturnsFrom schedule n := by
  obtain ⟨m, hnm, hm⟩ := fair i n
  obtain ⟨k, rfl⟩ := Nat.exists_eq_add_of_le hnm
  clear hnm
  -- `k` turns from here it is the turn of the one who holds the lock
  induction k generalizing n with
  | zero =>
    have hn : schedule n = i := hm
    exact ⟨n + 1, Nat.lt_succ_self n, by simp [after, turn, hrunning, hn, leave]⟩
  | succ k ih =>
    by_cases hn : schedule n = i
    · exact ⟨n + 1, Nat.lt_succ_self n, by simp [after, turn, hrunning, hn, leave]⟩
    · have hwaits : (s.after schedule (n + 1)).running = some i := by
        simp [after, turn, hrunning, hn]
      exact (ih hwaits (by rwa [Nat.add_right_comm])).of_succ

theorem after_succ_eq_or_returnsFrom (fair : Fair schedule) (n : Nat) :
    s.after schedule (n + 1) = s.after schedule n ∨ s.ReturnsFrom schedule n := by
  rcases (s.after schedule n).turn_cases (schedule n) with h | ⟨-, -, -, h⟩ | ⟨-, -, -, h⟩ |
    ⟨hrunning, -⟩
  · exact .inl h
  · have hrunning : (s.after schedule (n + 1)).running = some (schedule n) := by rw [after, h]
    exact .inr (returnsFrom_of_running fair hrunning).of_succ
  · exact .inr ⟨n + 1, Nat.lt_succ_self n, by simp [after, h]⟩
  · exact .inr (returnsFrom_of_running fair hrunning)

theorem returnsFrom_of_not_hasReturned (fair : Fair schedule)
    (hi : (s.after schedule n).hasReturned i = false) : s.ReturnsFrom schedule n := by
  obtain ⟨m, hnm, hm⟩ := fair i n
  obtain ⟨k, rfl⟩ := Nat.exists_eq_add_of_le hnm
  clear hnm
  -- `k` turns from here it is the turn of this opener
  induction k generalizing n with
  | zero =>
    have hn : schedule n = i := hm
    cases hrunning : (s.after schedule n).running with
    | some j => exact returnsFrom_of_running fair hrunning
    | none =>
      have hturn : s.after schedule (n + 1) = (s.after schedule n).enter i := by
        simp [after, turn, hrunning, hn, hi]
      rcases after_succ_eq_or_returnsFrom (s := s) fair n with hsame | h
      · exact absurd (hturn.symm.trans hsame) (enter_ne hrunning i)
      · exact h
  | succ k ih =>
    rcases after_succ_eq_or_returnsFrom (s := s) fair n with hsame | h
    · exact (ih (by rwa [hsame]) (by rwa [Nat.add_right_comm])).of_succ
    · exact h

theorem exists_all_returned [Finite ι] (h : Orderly s) (fair : Fair schedule) :
    ∃ n, ∀ i, (s.after schedule n).hasReturned i = true := by
  have := Fintype.ofFinite ι
  by_contra hnever
  -- otherwise the number of calls that have returned passes every bound
  have hlonger : ∀ l, ∃ n, l ≤ (s.after schedule n).returned.length := by
    intro l
    induction l with
    | zero => exact ⟨0, Nat.zero_le _⟩
    | succ l ih =>
      obtain ⟨n, hn⟩ := ih
      obtain ⟨i, hi⟩ := not_forall.1 (not_exists.1 hnever n)
      obtain ⟨m, -, hm⟩ := returnsFrom_of_not_hasReturned fair (Bool.eq_false_iff.2 hi)
      exact ⟨m, Nat.lt_of_le_of_lt hn hm⟩
  obtain ⟨n, hn⟩ := hlonger (Fintype.card ι + 1)
  have hle := (h.after schedule n).nodup.length_le_card
  rw [List.length_map] at hle
  exact Nat.not_succ_le_self _ (Nat.le_trans hn hle)

/-- **Every key is set up until the first success.** Whatever order the openers take their turns in,
each call returns what it would if all were made one after the other. It runs its set-up exactly if
none with its key that returned before has run one with success; it returns without an error if it
has nothing to run, and otherwise as its set-up does. So at most one set-up of a key succeeds; the
guard tells of each key whether one has, and a turn in which none does changes nothing for the key.
A panic leaves the lock poisoned, of which no call takes notice. If the openers are finitely many
and get their turns again and again, all calls return. -/
theorem setup_until_first_success (calls : ι → SetupCall κ ε) (schedule : Nat → ι) :
    (∀ n, let s := (start calls).after schedule n
      (∀ before a later, s.returned = before ++ a :: later →
        a.call = calls a.opener ∧ a.opener ∉ before.map (·.opener) ∧
        a.result = ((SetupGuard.after (before.map (·.call))).runOnce a.call.key a.call.setup).1 ∧
        (a.ran = true ↔ ∀ b ∈ before, b.call.key = a.call.key → b.succeeded = false) ∧
        a.result = if a.ran then a.call.setup else .ok ()) ∧
      (∀ k, (s.returned.filter fun a ↦ a.call.key = k && a.succeeded).length ≤ 1) ∧
      (∀ k, s.lock.found.needs k = true ↔
        ∀ a ∈ s.returned, a.call.key = k → a.succeeded = false) ∧
      (∀ i k, (s.turn i).lock.found.needs k = s.lock.found.needs k ∨
        ∃ a, (s.turn i).returned = s.returned ++ [a] ∧ a.call.key = k ∧ a.succeeded = true) ∧
      (s.lock.poisoned = true ↔
        ∃ a ∈ s.returned, ∃ message, a.result = .error (.panicked message))) ∧
    (Finite ι → Fair schedule →
      ∃ n, ∀ i, ∃ a ∈ ((start calls).after schedule n).returned, a.opener = i) := by
  refine ⟨fun n ↦ ?_, fun _ fair ↦ ?_⟩
  · intro s
    have h : Orderly s := (orderly_start calls).after schedule n
    simp only [Lock.found_eq]
    refine ⟨fun before a later heq ↦ ⟨?_, ?_, h.oneByOne.call_cases heq⟩,
      h.oneByOne.length_succeeded_le, h.oneByOne.needs_iff, h.needs_turn, h.poisoned⟩
    · have ha : a ∈ s.returned := heq ▸ List.mem_append_right _ List.mem_cons_self
      rw [h.call_eq a ha, calls_after, start]
    · have hnodup := h.nodup
      rw [heq, List.map_append, List.map_cons] at hnodup
      exact fun hmem ↦ (List.nodup_append.1 hnodup).2.2 _ hmem _ List.mem_cons_self rfl
  · obtain ⟨n, hn⟩ := exists_all_returned (orderly_start calls) fair
    exact ⟨n, fun i ↦ by simpa [hasReturned] using hn i⟩

/-- Two kinds of store: the set-up of one fails, panics and succeeds, and that of the other is still
needed. -/
def fiveCalls : Fin 5 → SetupCall Bool String
  | 0 => ⟨true, .error (.failed "no database")⟩
  | 1 => ⟨true, .error (.panicked none)⟩
  | 2 => ⟨true, .ok ()⟩
  | 3 => ⟨true, .ok ()⟩
  | 4 => ⟨false, .ok ()⟩

/-- Each of the five in its turn, round after round. -/
def inRounds (n : Nat) : Fin 5 := ⟨n % 5, Nat.mod_lt n (by decide)⟩

theorem fair_inRounds : Fair inRounds := fun i n ↦
  ⟨5 * n + i, by omega, Fin.ext (by simp only [inRounds]; omega)⟩

theorem setup_of_five_calls :
    Finite (Fin 5) ∧ Fair inRounds ∧
      (((start fiveCalls).after inRounds 25).returned.map fun a ↦ (a.opener, a.ran))
        = [(0, true), (1, true), (2, true), (3, false), (4, true)] ∧
      ∃ n, ∀ i, ∃ a ∈ ((start fiveCalls).after inRounds n).returned, a.opener = i :=
  ⟨inferInstance, fair_inRounds, by decide,
    (setup_until_first_success fiveCalls inRounds).2 inferInstance fair_inRounds⟩

end Openers

end NixStore
