import NixStore.Proofs.Stream.Transmission

/-!
# Progress of a transmission

No turn puts more into the buffer than a chunk, and none leaves more in the channel than there is
room for. A side that waits does nothing, so it is enough to look at the turns that get through: a
producer that waits for room stays as it is until the consumer takes a message or leaves, and what
does not wait keeps its room until its next turn. So each step of a producer comes some time, and
the end comes by induction on the producer.
-/

namespace NixStore

namespace Work

variable {chunkSize : Nat} {gone : Bool} {w w' : Work} {calls : List Answered}

theorem Advances.message?_eq_none (h : Advances chunkSize gone w w' calls) : w.message? = none := by
  cases h <;> rfl

theorem Advances.buffered_le (h : Advances chunkSize gone w w' calls)
    (hle : w.buffered ≤ chunkSize) : w'.buffered ≤ chunkSize := by
  cases h with
  | @take data next buffer room =>
    simp only [buffered, ← Array.length_toList, Array.toList_appendList, List.length_append,
      List.length_take] at hle ⊢
    omega
  | _ => exact Nat.zero_le _

theorem buffered_resume_le (received : Bool) (hle : w.buffered ≤ chunkSize) :
    (w.resume chunkSize received).1.buffered ≤ chunkSize := by
  cases w with
  | running | ended => exact hle
  | writing chunk data next =>
    cases received with
    | true =>
      simp only [resume, if_true, buffered, List.size_toArray, List.length_take]
      omega
    | false => exact Nat.zero_le _
  | flushing | ending => exact Nat.zero_le _
  | closing => cases received <;> exact Nat.zero_le _

end Work

namespace Transmission

variable {t : Transmission} {schedule : Nat → Turn}

theorem limits_turn (t : Transmission) (x : Turn) :
    (t.turn x).chunkSize = t.chunkSize ∧ (t.turn x).capacity = t.capacity := by
  cases x with
  | leave => exact ⟨rfl, rfl⟩
  | poll =>
    rw [turn, poll]
    split <;> exact ⟨rfl, rfl⟩
  | send =>
    rcases t.send_cases with ⟨_, _, -, h⟩ | ⟨-, h⟩ | ⟨_, -, -, h⟩ | ⟨_, -, -, -, h⟩ <;>
      rw [turn, h] <;> exact ⟨rfl, rfl⟩

theorem work_turn (t : Transmission) {x : Turn} (hx : x ≠ .send) : (t.turn x).work = t.work := by
  cases x with
  | leave => rfl
  | poll =>
    rw [turn, poll]
    split <;> rfl
  | send => exact absurd rfl hx

/-- The size of a chunk and the room in the channel stay what they are. -/
theorem limits_after (t : Transmission) (schedule : Nat → Turn) (n : Nat) :
    (t.after schedule n).chunkSize = t.chunkSize ∧ (t.after schedule n).capacity = t.capacity := by
  induction n with
  | zero => exact ⟨rfl, rfl⟩
  | succ n ih =>
    obtain ⟨hsize, hcapacity⟩ := (t.after schedule n).limits_turn (schedule n)
    exact ⟨hsize.trans ih.1, hcapacity.trans ih.2⟩

theorem buffered_turn_le (h : t.work.buffered ≤ t.chunkSize) (x : Turn) :
    (t.turn x).work.buffered ≤ t.chunkSize := by
  by_cases hx : x = .send
  · subst hx
    rcases t.send_cases with ⟨_, _, hadv, hsend⟩ | ⟨-, hsend⟩ | ⟨_, -, -, hsend⟩ |
      ⟨_, -, -, -, hsend⟩ <;> rw [turn, hsend]
    · exact hadv.buffered_le h
    · exact h
    · exact Work.buffered_resume_le false h
    · exact Work.buffered_resume_le true h
  · rw [t.work_turn hx]
    exact h

theorem buffered_after_le (h : t.work.buffered ≤ t.chunkSize) (schedule : Nat → Turn) (n : Nat) :
    (t.after schedule n).work.buffered ≤ t.chunkSize := by
  induction n with
  | zero => exact h
  | succ n ih =>
    obtain ⟨hsize, -⟩ := t.limits_after schedule n
    rw [after, ← hsize]
    rw [← hsize] at ih
    exact buffered_turn_le ih _

/-! ## Progress -/

theorem length_waiting_turn_le (h : t.stream.waiting.length ≤ t.capacity) (x : Turn) :
    (t.turn x).stream.waiting.length ≤ t.capacity := by
  cases x with
  | leave => exact Nat.zero_le _
  | poll =>
    rw [turn, poll]
    split
    · exact h
    · exact Nat.le_trans (Channel.length_waiting_next_le t.stream) h
  | send =>
    rcases t.send_cases with ⟨_, _, -, hs⟩ | ⟨-, hs⟩ | ⟨_, -, -, hs⟩ | ⟨_, -, -, room, hs⟩ <;>
      rw [turn, hs]
    · exact h
    · exact h
    · exact h
    · rw [List.length_append]
      exact room

/-- The channel never keeps more than there is room for. -/
theorem length_waiting_after_le (h : t.stream.waiting.length ≤ t.capacity)
    (schedule : Nat → Turn) (n : Nat) :
    (t.after schedule n).stream.waiting.length ≤ t.capacity := by
  induction n with
  | zero => exact h
  | succ n ih =>
    obtain ⟨-, hcap⟩ := t.limits_after schedule n
    rw [← hcap] at ih ⊢
    exact length_waiting_turn_le ih _

/-- What does not wait for room does not begin to while others take their turns. -/
theorem not_blocked_turn (h : t.blocked = false) {x : Turn} (hx : x ≠ .send) :
    (t.turn x).blocked = false := by
  cases x with
  | send => exact absurd rfl hx
  | leave => simp [turn, blocked]
  | poll =>
    rw [turn, poll]
    split
    · exact h
    · have hle := Channel.length_waiting_next_le t.stream
      have hfin : t.stream.finished = true → t.stream.next.2.finished = true := fun hfin ↦ by
        simp [ArchiveStream.next, hfin]
      simp only [blocked, Bool.and_eq_false_iff, Bool.not_eq_false', decide_eq_false_iff_not,
        Nat.not_le] at h ⊢
      rcases h with (h | h) | h
      · exact .inl (.inl h)
      · exact .inl (.inr (hfin h))
      · exact .inr (Nat.lt_of_le_of_lt hle h)

/-- A poll makes room. -/
theorem not_blocked_poll (hcap : 0 < t.capacity) (hle : t.stream.waiting.length ≤ t.capacity) :
    t.poll.blocked = false := by
  cases hblocked : t.blocked with
  | false => exact not_blocked_turn hblocked (x := .poll) nofun
  | true =>
    obtain ⟨chunkSize, capacity, work, calls, ⟨path, waiting, finished⟩, seen⟩ := t
    simp only [blocked, Bool.and_eq_true, Bool.not_eq_true', decide_eq_true_eq] at hblocked
    obtain ⟨⟨hm, rfl⟩, hfull⟩ := hblocked
    cases waiting with
    | nil => exact absurd hcap (Nat.not_lt.2 hfull)
    | cons m rest =>
      have hstarved : starved ⟨chunkSize, capacity, work, calls, ⟨path, m :: rest, false⟩, seen⟩
          = false := by
        cases work <;> rfl
      rw [poll, hstarved]
      cases m with
      | chunk bytes =>
        simp only [blocked, ArchiveStream.next, Bool.false_eq_true, if_false, Bool.and_eq_false_iff,
          decide_eq_false_iff_not]
        exact .inr (Nat.not_le.2 hle)
      | done | failed => simp [blocked, ArchiveStream.next]

theorem send_of_blocked (h : t.blocked = true) : t.send = t := by
  cases hm : t.work.message? with
  | none => simp [blocked, hm] at h
  | some m => simp only [send, hm, h, if_true]

theorem not_blocked_of_finished (h : t.stream.finished = true) : t.blocked = false := by
  simp [blocked, h]

theorem finished_turn (h : t.stream.finished = true) (x : Turn) :
    (t.turn x).stream.finished = true := by
  cases x with
  | leave => rfl
  | send =>
    rcases t.send_cases with ⟨_, _, -, hs⟩ | ⟨-, hs⟩ | ⟨_, -, -, hs⟩ | ⟨_, -, -, -, hs⟩ <;>
      rw [turn, hs] <;> exact h
  | poll =>
    rw [turn, poll]
    split
    · exact h
    · simp [ArchiveStream.next, h]

theorem finished_after {n : Nat} (h : (t.after schedule n).stream.finished = true) {m : Nat}
    (hm : n ≤ m) : (t.after schedule m).stream.finished = true := by
  induction hm with
  | refl => exact h
  | step _ ih => exact finished_turn ih _

/-- The producer gets its turns again and again. So does the consumer, or nothing more is taken from
some time on. -/
structure Moving (t : Transmission) (schedule : Nat → Turn) : Prop where
  sends : ∀ n, ∃ m, n ≤ m ∧ schedule m = .send
  polls_or_finished : (∀ n, ∃ m, n ≤ m ∧ schedule m = .poll) ∨
    ∃ n, (t.after schedule n).stream.finished = true

section

variable (hmoving : t.Moving schedule) (hcap : 0 < t.capacity)
  (hle : ∀ n, (t.after schedule n).stream.waiting.length ≤ t.capacity)

include hmoving hcap hle

/-- Whoever waits for room is given some, before anything else is done. -/
theorem exists_not_blocked (n : Nat) :
    ∃ m, n ≤ m ∧ (t.after schedule m).work = (t.after schedule n).work ∧
      (t.after schedule m).blocked = false := by
  -- at the latest `k` turns from here, and nothing is done by whoever waits until then
  have key : ∀ k n, (t.after schedule (n + k)).blocked = false → ∃ m, n ≤ m ∧
      (t.after schedule m).work = (t.after schedule n).work ∧
      (t.after schedule m).blocked = false := by
    intro k
    induction k with
    | zero => exact fun n hn ↦ ⟨n, Nat.le_refl n, rfl, hn⟩
    | succ k ih =>
      intro n hn
      cases hblocked : (t.after schedule n).blocked with
      | false => exact ⟨n, Nat.le_refl n, rfl, hblocked⟩
      | true =>
        have hstep : (t.after schedule (n + 1)).work = (t.after schedule n).work := by
          rw [after]
          by_cases hx : schedule n = .send
          · rw [hx, turn, send_of_blocked hblocked]
          · exact work_turn _ hx
        obtain ⟨m, hnm, hwork, hm⟩ := ih (n + 1) (by rwa [Nat.add_right_comm, Nat.add_assoc])
        exact ⟨m, Nat.le_of_succ_le hnm, hwork.trans hstep, hm⟩
  obtain ⟨m, hnm, hm⟩ : ∃ m, n ≤ m ∧ (t.after schedule m).blocked = false := by
    rcases hmoving.polls_or_finished with hpolls | ⟨l, hl⟩
    · obtain ⟨m, hnm, hm⟩ := hpolls n
      refine ⟨m + 1, Nat.le_succ_of_le hnm, ?_⟩
      rw [← (t.limits_after schedule m).2] at hcap hle
      rw [after, hm]
      exact not_blocked_poll hcap (hle m)
    · exact ⟨max n l, Nat.le_max_left n l,
        not_blocked_of_finished (finished_after hl (Nat.le_max_right n l))⟩
  obtain ⟨k, rfl⟩ := Nat.exists_eq_add_of_le hnm
  exact key k n hm

theorem exists_send (n : Nat) :
    ∃ m, (t.after schedule m).work = (t.after schedule n).work ∧
      (t.after schedule m).blocked = false ∧ schedule m = .send := by
  obtain ⟨l, -, hwork, hl⟩ := exists_not_blocked hmoving hcap hle n
  have key : ∀ k l, (t.after schedule l).blocked = false → schedule (l + k) = .send →
      ∃ m, (t.after schedule m).work = (t.after schedule l).work ∧
        (t.after schedule m).blocked = false ∧ schedule m = .send := by
    intro k
    induction k with
    | zero => exact fun l hl hsend ↦ ⟨l, rfl, hl, hsend⟩
    | succ k ih =>
      intro l hl hsend
      by_cases hx : schedule l = .send
      · exact ⟨l, rfl, hl, hx⟩
      · obtain ⟨m, hwork, hm⟩ := ih (l + 1) (not_blocked_turn hl hx)
          (by rwa [Nat.add_right_comm, Nat.add_assoc])
        exact ⟨m, hwork.trans (work_turn _ hx), hm⟩
  obtain ⟨m, hlm, hm⟩ := hmoving.sends l
  obtain ⟨k, rfl⟩ := Nat.exists_eq_add_of_le hlm
  obtain ⟨m, hwork', hsend⟩ := key k l hl hm
  exact ⟨m, hwork'.trans hwork, hsend⟩

theorem exists_advances {n : Nat} {p : Producer (Except Fault Unit)} {buffer : Array UInt8}
    (h : (t.after schedule n).work = .running p buffer) :
    ∃ m gone calls, Work.Advances t.chunkSize gone (.running p buffer) (t.after schedule m).work
      calls := by
  obtain ⟨m, hwork, hblocked, hsend⟩ := exists_send hmoving hcap hle n
  obtain ⟨hsize, -⟩ := t.limits_after schedule m
  refine ⟨m + 1, ?_⟩
  rw [after, hsend, turn, ← h, ← hwork, ← hsize]
  rw [h] at hwork
  generalize t.after schedule m = u at hblocked hwork
  rcases u.send_cases with ⟨_, _, hadv, hs⟩ | ⟨hb, -⟩ | ⟨_, hm, -, -⟩ | ⟨_, hm, -, -, -⟩
  · rw [hs]
    exact ⟨_, _, hadv⟩
  · rw [hb] at hblocked
    cases hblocked
  all_goals
    rw [hwork] at hm
    cases hm

theorem exists_resume {n : Nat} {w : Work} {message : Message}
    (h : (t.after schedule n).work = w) (hmessage : w.message? = some message) :
    ∃ m received, (t.after schedule m).work = (w.resume t.chunkSize received).1 := by
  obtain ⟨m, hwork, hblocked, hsend⟩ := exists_send hmoving hcap hle n
  obtain ⟨hsize, -⟩ := t.limits_after schedule m
  refine ⟨m + 1, ?_⟩
  rw [after, hsend, turn, ← hsize]
  rw [h] at hwork
  generalize t.after schedule m = u at hblocked hwork
  subst hwork
  rcases u.send_cases with ⟨_, _, hadv, -⟩ | ⟨hb, -⟩ | ⟨_, -, -, hs⟩ | ⟨_, -, -, -, hs⟩
  · rw [hadv.message?_eq_none] at hmessage
    cases hmessage
  · rw [hb] at hblocked
    cases hblocked
  · exact ⟨false, by rw [hs]⟩
  · exact ⟨true, by rw [hs]⟩

/-- **A producer always comes to its end**, if it gets its turns and the consumer goes on or
leaves. -/
theorem exists_ended (n : Nat) : ∃ m outcome, (t.after schedule m).work = .ended outcome := by
  have hadvances := @exists_advances t schedule hmoving hcap hle
  have hresume := @exists_resume t schedule hmoving hcap hle
  have hending : ∀ n outcome last, (t.after schedule n).work = .ending outcome last →
      ∃ m outcome, (t.after schedule m).work = .ended outcome := by
    intro n outcome last hn
    obtain ⟨m, _, hm⟩ := hresume hn rfl
    exact ⟨m, outcome, hm⟩
  have hclosing : ∀ n chunk, (t.after schedule n).work = .closing chunk →
      ∃ m outcome, (t.after schedule m).work = .ended outcome := by
    intro n chunk hn
    obtain ⟨m, received, hm⟩ := hresume hn rfl
    cases received with
    | true => exact hending m _ _ hm
    | false => exact ⟨m, _, hm⟩
  have hrunning : ∀ p n buffer, (t.after schedule n).work = .running p buffer →
      ∃ m outcome, (t.after schedule m).work = .ended outcome := by
    intro p
    induction p with
    | done outcome =>
      intro n buffer hn
      obtain ⟨m, _, _, hadv⟩ := hadvances hn
      generalize hm : (t.after schedule m).work = w at hadv
      cases hadv with
      | succeed | fail => exact hending m _ _ hm
      | close => exact hclosing m _ hm
      | stop e => exact ⟨m, _, hm⟩
    | write data next ih =>
      intro n buffer hn
      obtain ⟨m, _, _, hadv⟩ := hadvances hn
      generalize hm : (t.after schedule m).work = w at hadv
      cases hadv with
      | take => exact ih _ m _ hm
      | write =>
        obtain ⟨l, received, hl⟩ := hresume hm rfl
        cases received <;> exact ih _ l _ hl
    | flush next ih =>
      intro n buffer hn
      obtain ⟨m, _, _, hadv⟩ := hadvances hn
      generalize hm : (t.after schedule m).work = w at hadv
      cases hadv with
      | skip => exact ih _ m _ hm
      | flush =>
        obtain ⟨l, _, hl⟩ := hresume hm rfl
        exact ih _ l _ hl
  cases hn : (t.after schedule n).work with
  | running p buffer => exact hrunning p n buffer hn
  | writing chunk data next =>
    obtain ⟨m, received, hm⟩ := hresume hn rfl
    cases received <;> exact hrunning _ m _ hm
  | flushing chunk next =>
    obtain ⟨m, _, hm⟩ := hresume hn rfl
    exact hrunning _ m _ hm
  | closing chunk => exact hclosing n chunk hn
  | ending outcome last => exact hending n outcome last hn
  | ended outcome => exact ⟨n, outcome, hn⟩

end

end Transmission

end NixStore
