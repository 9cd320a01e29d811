import NixStore.Proofs.Stream.Progress
import NixStore.Stream.Segments

/-!
# A consumer that leaves

Once the consumer has left, nothing waits and nothing is received any more. A producer can still
write into the buffer, but what it writes there comes to no more than there was room for when the
consumer left: the next call that needs the buffer to be sent fails, and a call that waited for that
already fails at once. The invariant adds up what was accepted since then with what was in the
buffer at first, and compares it with the buffer. Only a failure empties that, so the sum is right
until the first one, and afterwards it is not needed.
-/

namespace NixStore

namespace Answered

variable {call : Answered} {calls : List Answered}

theorem accepted_of_error {e : IoError} (h : call.error? = some e) : call.accepted = [] := by
  cases call with
  | write data answer =>
    cases answer with
    | ok n => cases h
    | error e => rfl
  | flush answer => rfl

theorem acceptedUntilFailure_cons_of_none (h : call.error? = none) (calls : List Answered) :
    acceptedUntilFailure (call :: calls) = call.accepted ++ acceptedUntilFailure calls := by
  rw [acceptedUntilFailure, List.takeWhile_cons, h]
  rfl

theorem acceptedUntilFailure_cons_of_some {e : IoError} (h : call.error? = some e)
    (calls : List Answered) : acceptedUntilFailure (call :: calls) = [] := by
  rw [acceptedUntilFailure, List.takeWhile_cons, h]
  rfl

theorem acceptedUntilFailure_append (h : ∀ call ∈ calls, call.error? = none) (call : Answered) :
    acceptedUntilFailure (calls ++ [call]) = calls.flatMap accepted ++ call.accepted := by
  induction calls with
  | nil =>
    cases hcall : call.error? with
    | none => exact (acceptedUntilFailure_cons_of_none hcall []).trans (List.append_nil _)
    | some e =>
      rw [accepted_of_error hcall]
      exact acceptedUntilFailure_cons_of_some hcall []
  | cons first rest ih =>
    obtain ⟨hfirst, hrest⟩ := List.forall_mem_cons.1 h
    rw [List.cons_append, acceptedUntilFailure_cons_of_none hfirst, ih hrest, List.flatMap_cons,
      List.append_assoc]

theorem acceptedUntilFailure_append_of_exists (h : ∃ call ∈ calls, call.error? ≠ none)
    (call : Answered) : acceptedUntilFailure (calls ++ [call]) = acceptedUntilFailure calls := by
  induction calls with
  | nil =>
    obtain ⟨_, hmem, -⟩ := h
    cases hmem
  | cons first rest ih =>
    rw [List.cons_append]
    cases hfirst : first.error? with
    | some e =>
      rw [acceptedUntilFailure_cons_of_some hfirst, acceptedUntilFailure_cons_of_some hfirst]
    | none =>
      obtain ⟨failed, hmem, hfailed⟩ := h
      rcases List.mem_cons.1 hmem with rfl | hmem
      · exact absurd hfirst hfailed
      · rw [acceptedUntilFailure_cons_of_none hfirst, acceptedUntilFailure_cons_of_none hfirst,
          ih ⟨failed, hmem, hfailed⟩]

end Answered

namespace Work

variable {chunkSize k : Nat} {w w' : Work} {calls : List Answered} {call : Answered}

/-- How many bytes there can be in the buffer before a call fails. -/
def filled (chunkSize : Nat) : Work → Nat
  | running _ buffer => buffer.size
  | _ => chunkSize

/-- Some calls were answered since the consumer left, with `k` bytes in the buffer at first. -/
structure Stopping (chunkSize k : Nat) (calls : List Answered) (w : Work) : Prop where
  bound : (Answered.acceptedUntilFailure calls).length + k ≤ chunkSize
  filled : (∀ call ∈ calls, call.error? = none) →
    (calls.flatMap Answered.accepted).length + k ≤ w.filled chunkSize
  gone : ∀ call ∈ calls, ∀ e, call.error? = some e → e = .consumerGone

namespace Stopping

theorem start (hle : w.buffered ≤ chunkSize) : Stopping chunkSize w.buffered [] w where
  bound := by
    change 0 + w.buffered ≤ chunkSize
    rwa [Nat.zero_add]
  filled _ := by
    change 0 + w.buffered ≤ _
    rw [Nat.zero_add]
    cases w with
    | running p buffer => exact Nat.le_refl _
    | _ => exact Nat.zero_le _
  gone call hcall := absurd hcall List.not_mem_nil

theorem none (h : Stopping chunkSize k calls w)
    (hle : w.filled chunkSize ≤ w'.filled chunkSize) : Stopping chunkSize k calls w' :=
  ⟨h.bound, fun hall ↦ Nat.le_trans (h.filled hall) hle, h.gone⟩

theorem ok (h : Stopping chunkSize k calls w) (hcall : call.error? = .none)
    (hfilled : w.filled chunkSize + call.accepted.length ≤ w'.filled chunkSize)
    (hle : w'.filled chunkSize ≤ chunkSize) : Stopping chunkSize k (calls ++ [call]) w' := by
  have hfirst : ∀ {P : Answered → Prop}, (∀ c ∈ calls ++ [call], P c) → ∀ c ∈ calls, P c :=
    fun hall c hc ↦ hall c (List.mem_append_left _ hc)
  refine ⟨?_, fun hall ↦ ?_, fun c hc e he ↦ ?_⟩
  · by_cases hall : ∀ c ∈ calls, c.error? = .none
    · have hsum := h.filled hall
      rw [Answered.acceptedUntilFailure_append hall, List.length_append]
      omega
    · simp only [Classical.not_forall] at hall
      obtain ⟨c, hc, hfailed⟩ := hall
      rw [Answered.acceptedUntilFailure_append_of_exists ⟨c, hc, hfailed⟩]
      exact h.bound
  · have hsum := h.filled (hfirst hall)
    rw [List.flatMap_append, List.flatMap_singleton, List.length_append]
    omega
  · rcases List.mem_append.1 hc with hc | hc
    · exact h.gone c hc e he
    · rw [List.mem_singleton.1 hc, hcall] at he
      cases he

theorem error (h : Stopping chunkSize k calls w) (hcall : call.error? = some .consumerGone)
    (hle : w.filled chunkSize ≤ chunkSize) (w' : Work) :
    Stopping chunkSize k (calls ++ [call]) w' := by
  refine ⟨?_, fun hall ↦ ?_, fun c hc e he ↦ ?_⟩
  · by_cases hall : ∀ c ∈ calls, c.error? = .none
    · have hsum := h.filled hall
      rw [Answered.acceptedUntilFailure_append hall, Answered.accepted_of_error hcall,
        List.append_nil]
      omega
    · simp only [Classical.not_forall] at hall
      obtain ⟨c, hc, hfailed⟩ := hall
      rw [Answered.acceptedUntilFailure_append_of_exists ⟨c, hc, hfailed⟩]
      exact h.bound
  · rw [hall call (List.mem_append_right _ (List.mem_singleton_self _))] at hcall
    cases hcall
  · rcases List.mem_append.1 hc with hc | hc
    · exact h.gone c hc e he
    · rw [List.mem_singleton.1 hc, hcall] at he
      exact (Option.some.inj he).symm

end Stopping

theorem filled_le (h : w.buffered ≤ chunkSize) : w.filled chunkSize ≤ chunkSize := by
  cases w with
  | running p buffer => exact h
  | _ => exact Nat.le_refl _

theorem Advances.stopping {new : List Answered} (h : Advances chunkSize true w w' new)
    (hle : w.buffered ≤ chunkSize) (hs : Stopping chunkSize k calls w) :
    Stopping chunkSize k (calls ++ new) w' := by
  have hle' := filled_le (h.buffered_le hle)
  cases h with
  | @take data next buffer room =>
    refine hs.ok rfl ?_ hle'
    simp only [Work.filled, Answered.accepted, Producer.take_length_take, ← Array.length_toList,
      Array.toList_appendList, List.length_append]
    exact Nat.le_refl _
  | skip empty =>
    refine hs.ok rfl ?_ hle'
    rw [Array.isEmpty_iff.1 empty]
    exact Nat.le_refl _
  | write | flush | succeed | close | fail | stop =>
    rw [List.append_nil]
    exact hs.none (filled_le hle)
  | ended => rwa [List.append_nil]

theorem stopping_resume {m : Message} (hm : w.message? = some m)
    (hs : Stopping chunkSize k calls w) :
    Stopping chunkSize k (calls ++ (w.resume chunkSize false).2) (w.resume chunkSize false).1 := by
  cases w with
  | running | ended => cases hm
  | writing | flushing => exact hs.error rfl (Nat.le_refl _) _
  | closing | ending =>
    simp only [resume, List.append_nil]
    exact hs.none (Nat.le_refl _)

end Work

namespace Transmission

variable {t u : Transmission} {schedule : Nat → Turn}

/-- What has come of a transmission whose consumer has left. -/
structure Abandoned (t u : Transmission) : Prop where
  chunkSize_eq : u.chunkSize = t.chunkSize
  stream_eq : u.stream = ⟨t.stream.path, [], true⟩
  seen_eq : ∃ j, u.seen = t.seen ++ List.replicate j none
  buffered_le : u.work.buffered ≤ t.chunkSize
  calls_eq : ∃ new, u.calls = t.calls ++ new ∧
    u.work.Stopping t.chunkSize t.work.buffered new

theorem abandoned_leave (h : t.work.buffered ≤ t.chunkSize) : Abandoned t (t.turn .leave) where
  chunkSize_eq := rfl
  stream_eq := rfl
  seen_eq := ⟨0, (List.append_nil _).symm⟩
  buffered_le := h
  calls_eq := ⟨[], (List.append_nil _).symm, .start h⟩

/-- Turns of the producer go on with calls that are answered, and no message is received. -/
theorem Abandoned.send (h : Abandoned t u) : Abandoned t u.send := by
  obtain ⟨hsize, hstream, hseen, hle, new, hcalls, hstop⟩ := h
  have hfin : u.stream.finished = true := by rw [hstream]
  rcases u.send_cases with ⟨work, calls, hadv, hsend⟩ | ⟨-, hsend⟩ | ⟨m, hm, -, hsend⟩ |
    ⟨_, -, hopen, -, -⟩
  · rw [hfin, hsize] at hadv
    rw [hsend]
    refine ⟨hsize, hstream, hseen, hadv.buffered_le hle, new ++ calls, ?_, hadv.stopping hle hstop⟩
    rw [hcalls, List.append_assoc]
  · rw [hsend]
    exact ⟨hsize, hstream, hseen, hle, new, hcalls, hstop⟩
  · rw [hsend, hsize]
    refine ⟨rfl, hstream, hseen, Work.buffered_resume_le false hle, new ++ _, ?_,
      Work.stopping_resume hm hstop⟩
    rw [hcalls, List.append_assoc]
  · rw [hfin] at hopen
    cases hopen

theorem Abandoned.turn (h : Abandoned t u) (x : Turn) : Abandoned t (u.turn x) := by
  cases x with
  | send => exact h.send
  | leave =>
    obtain ⟨hsize, hstream, hseen, hle, hcalls⟩ := h
    exact ⟨hsize, by rw [Transmission.turn, hstream], hseen, hle, hcalls⟩
  | poll =>
    rw [Transmission.turn, poll]
    split
    · exact h
    · obtain ⟨hsize, hstream, ⟨j, hseen⟩, hle, hcalls⟩ := h
      have hnext : u.stream.next = (none, u.stream) := by rw [hstream]; rfl
      rw [hnext]
      refine ⟨hsize, hstream, ⟨j + 1, ?_⟩, hle, hcalls⟩
      rw [hseen, List.replicate_succ', List.append_assoc]

theorem Abandoned.after (h : Abandoned t u) (schedule : Nat → Turn) (n : Nat) :
    Abandoned t (u.after schedule n) := by
  induction n with
  | zero => exact h
  | succ n ih => exact ih.turn _

/-- What waits when the consumer leaves is answered in the next turn of the producer: nobody has
received it. -/
theorem send_leave {m : Message} (hm : t.work.message? = some m) :
    (t.turn .leave).send =
      { t with
        work := (t.work.resume t.chunkSize false).1
        calls := t.calls ++ (t.work.resume t.chunkSize false).2
        stream := ⟨t.stream.path, [], true⟩ } := by
  rcases (t.turn .leave).send_cases with ⟨_, _, hadv, -⟩ | ⟨hblocked, -⟩ | ⟨_, -, -, hsend⟩ |
    ⟨_, -, hopen, -, -⟩
  · rw [show (t.turn .leave).work = t.work from rfl] at hadv
    rw [hadv.message?_eq_none] at hm
    cases hm
  · rw [not_blocked_of_finished rfl] at hblocked
    cases hblocked
  · exact hsend
  · cases hopen

/-- **A producer whose consumer leaves stops within a chunk**, whatever both have done before and
whenever that is. What it has accepted since then, up to the first call that fails, comes to no more
than there was room for in the buffer. A call that waits fails with its next turn, and the last
message is left out. Nobody waits for room for ever, before or after. -/
theorem abandoned_producer_stops (path : StorePath) (p : Producer (Except Fault Unit))
    (chunkSize : Nat) {capacity : Nat} (hcap : 0 < capacity) (schedule : Nat → Turn) (n : Nat) :
    let t := (start chunkSize capacity path p).after schedule n
    let left := t.turn .leave
    (∃ schedule' n', t.channel =
      (Channel.start capacity path (p.transmit chunkSize)).after schedule' n') ∧
    (∀ later k,
      (left.after later k).blocked = false ∧
      (left.after later k).stream.waiting = [] ∧
      (∃ j, (left.after later k).seen = t.seen ++ List.replicate j none) ∧
      (∃ new, (left.after later k).calls = t.calls ++ new ∧
        (Answered.acceptedUntilFailure new).length ≤ chunkSize - t.work.buffered ∧
        ∀ call ∈ new, ∀ e, call.error? = some e → e = .consumerGone) ∧
      (∀ e buffer, (left.after later k).work = .running (.done (.error (.error e))) buffer →
        (left.after later k).send.work = .ended (.error (.error e)))) ∧
    (∀ chunk data next, t.work = .writing chunk data next →
      left.send.work = .running (next (.error .consumerGone)) #[] ∧
      left.send.calls = t.calls ++ [.write data (.error .consumerGone)]) ∧
    (∀ chunk next, t.work = .flushing chunk next →
      left.send.work = .running (next (.error .consumerGone)) #[] ∧
      left.send.calls = t.calls ++ [.flush (.error .consumerGone)]) ∧
    t.poll.blocked = false ∧
    (∀ later, (∀ m, ∃ k, m ≤ k ∧ later k = .send) →
      (∃ k outcome, (left.after later k).work = .ended outcome) ∧
      ((∀ m, ∃ k, m ≤ k ∧ later k = .poll) →
        ∃ k outcome, (t.after later k).work = .ended outcome)) := by
  intro t left
  obtain ⟨hsize, hcapacity⟩ : t.chunkSize = chunkSize ∧ t.capacity = capacity :=
    (start chunkSize capacity path p).limits_after schedule n
  have hcap' : 0 < t.capacity := hcapacity ▸ hcap
  have hbuffered : t.work.buffered ≤ t.chunkSize := by
    rw [hsize]
    exact buffered_after_le (t := start chunkSize capacity path p) (Nat.zero_le _) schedule n
  have hwaiting : t.stream.waiting.length ≤ t.capacity := by
    rw [hcapacity]
    exact length_waiting_after_le (t := start chunkSize capacity path p) (Nat.zero_le _) schedule n
  refine ⟨?_, fun later k ↦ ?_, fun chunk data next h ↦ ?_, fun chunk next h ↦ ?_,
    not_blocked_poll hcap' hwaiting, fun later sends ↦ ⟨?_, fun polls ↦ ?_⟩⟩
  · obtain ⟨schedule', n', hchannel, -⟩ := exists_channel_after chunkSize capacity path p schedule n
    exact ⟨schedule', n', hchannel⟩
  · obtain ⟨-, hstream, hseen, -, new, hcalls, hstop⟩ :=
      (abandoned_leave hbuffered).after later k
    have hfin : (left.after later k).stream.finished = true := by rw [hstream]
    refine ⟨not_blocked_of_finished hfin, by rw [hstream], hseen, ⟨new, hcalls, ?_, hstop.gone⟩,
      fun e buffer hwork ↦ ?_⟩
    · have hbound := hstop.bound
      rw [hsize] at hbound
      omega
    · rw [send, hwork]
      simp only [Work.message?, Work.advance, hfin, if_true]
  · rw [send_leave (by rw [h]; rfl), h]
    exact ⟨rfl, rfl⟩
  · rw [send_leave (by rw [h]; rfl), h]
    exact ⟨rfl, rfl⟩
  · exact exists_ended (t := left) ⟨sends, .inr ⟨0, rfl⟩⟩ hcap'
      (length_waiting_after_le (Nat.zero_le _) later) 0
  · exact exists_ended ⟨sends, .inl polls⟩ hcap' (length_waiting_after_le hwaiting later) 0

/-- The consumer leaves when there is no room for the second chunk. The write that waits for that
fails, the producer gives up, and it has ended. -/
theorem abandoned_while_blocked :
    let p : Producer (Except Fault Unit) :=
      .write [1, 2] fun _ ↦ .write [3, 4] fun _ ↦ .write [5, 6] fun _ ↦
        .done (.error (.error (.io .writingArchive .consumerGone)))
    let t := (start 2 1 default p).after (fun _ ↦ .send) 6
    let left := t.turn .leave
    0 < 1 ∧ t.blocked ∧ t.stream.waiting = [.chunk [1, 2]] ∧
      left.send.calls = t.calls ++ [.write [5, 6] (.error .consumerGone)] ∧
      ∃ k outcome, (left.after (fun _ ↦ .send) k).work = .ended outcome := by
  intro p t left
  obtain ⟨-, -, hwriting, -, -, hends⟩ :=
    abandoned_producer_stops default p 2 Nat.zero_lt_one (fun _ ↦ .send) 6
  have hwork : t.work = .writing [3, 4] [5, 6] fun _ ↦
      .done (.error (.error (.io .writingArchive .consumerGone))) := by
    subst left t p
    rfl
  refine ⟨Nat.zero_lt_one, ?_, ?_, (hwriting _ _ _ hwork).2,
    (hends _ fun m ↦ ⟨m, Nat.le_refl m, rfl⟩).1⟩
  · subst left t p
    rfl
  · subst left t p
    rfl

end Transmission

end NixStore
