import NixStore.Proofs.Stream.Chunks
import NixStore.Stream.Channel

/-!
# Interleavings of a sender and its consumer

Whatever order a sender and the consumer of its stream take their turns in, and however many
messages their channel keeps, the consumer is given the same: what it would be given if all
messages had been sent before the first poll. The proof carries one stream along each run, the
*remainder*: the messages under way with those that are still to be sent behind them. A sender's
turn does not change it, and a poll that does not wait takes its first item. So what was seen and
the remainder together are always what the sender had to say at the start.

The channel never keeps more than its capacity, and its two sides never wait for each other. As
long as the stream has not ended one of them can move, and each such turn brings the end nearer,
so under every fair schedule the end comes.
-/

namespace NixStore

namespace ArchiveStream

/-! ## Polls one by one -/

theorem items_of_finished {s : ArchiveStream} (h : s.finished) : s.items = [] := by
  simp [items, chunks, failure, h]

theorem items_chunk (path : StorePath) (bytes : Bytes) (rest : List Message) :
    items ⟨path, .chunk bytes :: rest, false⟩ = .ok bytes :: items ⟨path, rest, false⟩ := by
  simp [items, chunks, failure, Message.isTerminal, Message.chunk?]

theorem items_terminal (path : StorePath) {m : Message} (h : m.isTerminal) (rest : List Message) :
    items ⟨path, m :: rest, false⟩ = (ending path (some m)).toList.map .error := by
  simp [items, chunks, failure, h]

theorem next_fst (s : ArchiveStream) : s.next.1 = s.items.head? := by
  obtain ⟨path, waiting, finished⟩ := s
  cases finished with
  | true => rw [items_of_finished rfl]; rfl
  | false =>
    rcases waiting with _ | ⟨_ | _ | cause, rest⟩
    · rfl
    · rw [items_chunk]; rfl
    · rw [items_terminal path rfl]; rfl
    · rw [items_terminal path rfl]; rfl

theorem items_next (s : ArchiveStream) : s.next.2.items = s.items.tail := by
  obtain ⟨path, waiting, finished⟩ := s
  cases finished with
  | true =>
    have hnil : items ⟨path, waiting, true⟩ = [] := items_of_finished rfl
    rw [hnil]
    exact hnil
  | false =>
    rcases waiting with _ | ⟨_ | _ | cause, rest⟩
    · exact items_of_finished rfl
    · rw [items_chunk]; rfl
    · rw [items_terminal path rfl]; exact items_of_finished rfl
    · rw [items_terminal path rfl]; exact items_of_finished rfl

end ArchiveStream

namespace Channel

variable {α : Type} {c : Channel α} {schedule : Nat → Turn}

/-! ## The remainder -/

/-- The stream of all that is under way and still to be sent. -/
def remainder (c : Channel α) : ArchiveStream :=
  ⟨c.stream.path, c.stream.waiting ++ (c.sender.run none).2, c.stream.finished⟩

theorem items_remainder_of_finished (h : c.stream.finished) : c.remainder.items = [] :=
  ArchiveStream.items_of_finished h

theorem send_cases (c : Channel α) :
    c.send = c ∨
    (∃ m next, c.sender = .send m next ∧ c.stream.finished ∧
      c.send = { c with sender := next false }) ∨
    (∃ m next, c.sender = .send m next ∧ c.stream.finished = false ∧
      c.stream.waiting.length < c.capacity ∧
      c.send = { c with
        sender := next true
        stream := { c.stream with waiting := c.stream.waiting ++ [m] } }) := by
  obtain ⟨capacity, sender, ⟨path, waiting, finished⟩, seen⟩ := c
  cases sender with
  | done a => exact .inl rfl
  | send m next =>
    cases finished with
    | true => exact .inr (.inl ⟨m, next, rfl, rfl, rfl⟩)
    | false =>
      by_cases room : capacity ≤ waiting.length
      · exact .inl (by simp [send, blocked, room])
      · exact .inr (.inr ⟨m, next, rfl, rfl, Nat.lt_of_not_le room, by simp [send, blocked, room]⟩)

theorem items_remainder_send (c : Channel α) : c.send.remainder.items = c.remainder.items := by
  rcases send_cases c with h | ⟨m, next, -, hfin, h⟩ | ⟨m, next, hs, -, -, h⟩
  · rw [h]
  · rw [items_remainder_of_finished hfin, items_remainder_of_finished (by rw [h]; exact hfin)]
  · rw [h]
    simp [remainder, hs]

/-- A consumer that need not wait is given what the remainder gives. -/
theorem next_remainder (h : c.starved = false) :
    c.remainder.next =
      (c.stream.next.1, { c with stream := c.stream.next.2 : Channel α }.remainder) := by
  obtain ⟨capacity, sender, ⟨path, waiting, finished⟩, seen⟩ := c
  cases finished with
  | true => rfl
  | false =>
    rcases waiting with _ | ⟨_ | _ | cause, rest⟩
    · cases sender with
      | done a => rfl
      | send m next => simp [starved] at h
    · rfl
    · rfl
    · rfl

theorem poll_cases (c : Channel α) :
    (c.starved ∧ c.poll = c) ∨
    (c.poll.seen = c.seen ++ [c.remainder.items.head?] ∧
      c.poll.remainder.items = c.remainder.items.tail) := by
  cases h : c.starved with
  | true => exact .inl ⟨rfl, by simp [poll, h]⟩
  | false =>
    have hnext := next_remainder h
    rw [← ArchiveStream.next_fst, ← ArchiveStream.items_next, hnext]
    exact .inr (by simp [poll, h, remainder])

/-! ## What is seen -/

/-- What was seen and the remainder are what the sender had to say from the start. -/
theorem seen_and_remainder (capacity : Nat) (path : StorePath) (s : Sender α)
    (stays : ∀ n, schedule n ≠ .leave) (n : Nat) :
    ((start capacity path s).after schedule n).seen
        = (List.range ((start capacity path s).after schedule n).seen.length).map
            ((ArchiveStream.ofMessages path (s.run none).2).items[·]?) ∧
      ((start capacity path s).after schedule n).remainder.items
        = (ArchiveStream.ofMessages path (s.run none).2).items.drop
            ((start capacity path s).after schedule n).seen.length := by
  induction n with
  | zero => exact ⟨rfl, rfl⟩
  | succ n ih =>
    rw [after]
    generalize (start capacity path s).after schedule n = c at ih ⊢
    obtain ⟨hseen, hrest⟩ := ih
    cases hturn : schedule n with
    | leave => exact absurd hturn (stays n)
    | send =>
      have hs : c.send.seen = c.seen := by
        rcases send_cases c with h | ⟨m, next, -, -, h⟩ | ⟨m, next, -, -, -, h⟩ <;> rw [h]
      exact ⟨by rw [turn, hs]; exact hseen, by rw [turn, hs, items_remainder_send, hrest]⟩
    | poll =>
      rcases poll_cases c with ⟨-, h⟩ | ⟨hs, hr⟩
      · rw [turn, h]
        exact ⟨hseen, hrest⟩
      · rw [turn, hs, hr, hrest]
        refine ⟨?_, by rw [List.tail_drop, List.length_append]; rfl⟩
        rw [List.head?_drop, List.length_append, List.length_singleton, List.range_succ,
          List.map_append, ← hseen]
        rfl

/-! ## Room -/

theorem capacity_after (c : Channel α) (schedule : Nat → Turn) (n : Nat) :
    (c.after schedule n).capacity = c.capacity := by
  induction n with
  | zero => rfl
  | succ n ih =>
    rw [after, ← ih]
    cases schedule n with
    | leave => rfl
    | send =>
      rcases send_cases (c.after schedule n) with h | ⟨_, _, -, -, h⟩ | ⟨_, _, -, -, -, h⟩ <;>
        rw [turn, h]
    | poll =>
      rw [turn, poll]
      split <;> rfl

theorem length_waiting_next_le (s : ArchiveStream) :
    s.next.2.waiting.length ≤ s.waiting.length := by
  obtain ⟨path, waiting, finished⟩ := s
  cases finished with
  | true => exact Nat.le_refl _
  | false => rcases waiting with _ | ⟨_ | _ | cause, rest⟩ <;> simp [ArchiveStream.next]

/-- A channel never keeps more than its capacity. -/
theorem length_waiting_after_le (h : c.stream.waiting.length ≤ c.capacity)
    (schedule : Nat → Turn) (n : Nat) :
    (c.after schedule n).stream.waiting.length ≤ c.capacity := by
  induction n with
  | zero => exact h
  | succ n ih =>
    have hcap := capacity_after c schedule n
    rw [after]
    generalize c.after schedule n = d at ih hcap ⊢
    cases schedule n with
    | leave => exact Nat.zero_le _
    | send =>
      rcases send_cases d with hd | ⟨_, _, -, -, hd⟩ | ⟨m, _, -, -, room, hd⟩
      · rw [turn, hd]; exact ih
      · rw [turn, hd]; exact ih
      · rw [turn, hd, ← hcap, List.length_append]
        exact room
    | poll =>
      rw [turn, poll]
      split
      · exact ih
      · exact Nat.le_trans (length_waiting_next_le d.stream) ih

/-! ## Progress -/

/-- The two sides never wait for each other. -/
theorem not_blocked_of_starved (hcap : 0 < c.capacity) (h : c.starved) : c.blocked = false := by
  obtain ⟨capacity, sender, ⟨path, waiting, finished⟩, seen⟩ := c
  cases sender with
  | done a => rfl
  | send m next =>
    obtain ⟨rfl, rfl⟩ : finished = false ∧ waiting = [] := by simpa [starved] using h
    simpa [blocked] using Nat.ne_of_gt hcap

/-- How far the end is, in turns: each message still has to be sent and to be taken. -/
def distance (c : Channel α) : Nat :=
  if c.stream.finished then 0
  else 2 * (c.sender.run none).2.length + c.stream.waiting.length + 1

theorem distance_send (h : c.stream.finished = false) :
    c.send = c ∨ c.send.distance < c.distance := by
  rcases send_cases c with hc | ⟨_, _, -, hfin, -⟩ | ⟨m, next, hs, -, -, hc⟩
  · exact .inl hc
  · rw [hfin] at h
    cases h
  · refine .inr ?_
    rw [hc]
    simp only [distance, h, hs, Sender.run_send, List.length_append, List.length_cons,
      List.length_nil, Bool.false_eq_true, if_false]
    omega

theorem distance_poll (h : c.stream.finished = false) (hc : c.starved = false) :
    c.poll.distance < c.distance := by
  obtain ⟨capacity, sender, ⟨path, waiting, finished⟩, seen⟩ := c
  cases h
  rw [poll, hc]
  rcases waiting with _ | ⟨_ | _ | cause, rest⟩ <;>
    simp [distance, ArchiveStream.next]

theorem finished_turn (h : c.stream.finished) (t : Turn) : (c.turn t).stream.finished := by
  cases t with
  | leave => rfl
  | send =>
    rcases send_cases c with hc | ⟨_, _, -, -, hc⟩ | ⟨_, _, -, -, -, hc⟩ <;> rw [turn, hc] <;>
      exact h
  | poll =>
    rw [turn, poll]
    split
    · exact h
    · simp [ArchiveStream.next, h]

theorem turn_eq_or_nearer (h : c.stream.finished = false) {t : Turn} (ht : t ≠ .leave) :
    c.turn t = c ∨ (c.turn t).distance < c.distance := by
  cases t with
  | leave => exact absurd rfl ht
  | send => exact distance_send h
  | poll =>
    cases hc : c.starved with
    | true => exact .inl (by simp [turn, poll, hc])
    | false => exact .inr (distance_poll h hc)

theorem exists_turn_nearer (hcap : 0 < c.capacity) (h : c.stream.finished = false) :
    (c.turn .send).distance < c.distance ∨ (c.turn .poll).distance < c.distance := by
  cases hc : c.starved with
  | false => exact .inr (distance_poll h hc)
  | true =>
    refine .inl ((distance_send h).resolve_left fun hsame ↦ ?_)
    have hroom := not_blocked_of_starved hcap hc
    obtain ⟨capacity, sender, ⟨path, waiting, finished⟩, seen⟩ := c
    cases h
    cases sender with
    | done a => cases hc
    | send m next =>
      have hlen := congrArg (·.stream.waiting.length) hsame
      simp [send, hroom] at hlen

theorem after_eq_or_nearer (stays : ∀ n, schedule n ≠ .leave) {n : Nat}
    (h : (c.after schedule n).stream.finished = false) (k : Nat) :
    c.after schedule (n + k) = c.after schedule n ∨
      (c.after schedule (n + k)).distance < (c.after schedule n).distance := by
  induction k with
  | zero => exact .inl rfl
  | succ k ih =>
    rw [← Nat.add_assoc, after]
    rcases ih with ih | ih
    · rw [ih]
      exact turn_eq_or_nearer h (stays _)
    · refine .inr (Nat.lt_of_le_of_lt ?_ ih)
      cases hfin : (c.after schedule (n + k)).stream.finished with
      | true => simp [distance, finished_turn hfin]
      | false =>
        rcases turn_eq_or_nearer hfin (stays (n + k)) with hsame | hless
        · exact Nat.le_of_eq (congrArg distance hsame)
        · exact Nat.le_of_lt hless

theorem exists_nearer (fair : Turn.Fair schedule) (hcap : 0 < c.capacity) {n : Nat}
    (h : (c.after schedule n).stream.finished = false) :
    ∃ m, (c.after schedule m).distance < (c.after schedule n).distance := by
  have key : ∀ t, ((c.after schedule n).turn t).distance < (c.after schedule n).distance →
      (∃ m, n ≤ m ∧ schedule m = t) →
      ∃ m, (c.after schedule m).distance < (c.after schedule n).distance := by
    rintro t hless ⟨m, hnm, hm⟩
    obtain ⟨k, rfl⟩ := Nat.exists_eq_add_of_le hnm
    rcases after_eq_or_nearer fair.stays h k with hsame | hnear
    · exact ⟨n + k + 1, by rwa [after, hsame, hm]⟩
    · exact ⟨n + k, hnear⟩
  rw [← capacity_after c schedule n] at hcap
  rcases exists_turn_nearer hcap h with hsend | hpoll
  · exact key .send hsend (fair.sends n)
  · exact key .poll hpoll (fair.polls n)

/-- Under a fair schedule the end of the stream comes. -/
theorem exists_finished (fair : Turn.Fair schedule) (hcap : 0 < c.capacity) :
    ∃ n, (c.after schedule n).stream.finished := by
  have key : ∀ d n, (c.after schedule n).distance = d →
      ∃ n, (c.after schedule n).stream.finished := by
    intro d
    induction d using Nat.strongRecOn with
    | ind d ih =>
      intro n hd
      cases h : (c.after schedule n).stream.finished with
      | true => exact ⟨n, h⟩
      | false =>
        obtain ⟨m, hm⟩ := exists_nearer fair hcap h
        exact ih _ (hd ▸ hm) m rfl
  exact key _ 0 rfl

theorem exists_end_seen (capacity : Nat) (path : StorePath) (s : Sender α)
    (fair : Turn.Fair schedule) (hcap : 0 < capacity) :
    ∃ n, (ArchiveStream.ofMessages path (s.run none).2).items.length
      < ((start capacity path s).after schedule n).seen.length := by
  obtain ⟨n, hn⟩ := exists_finished (c := start capacity path s) fair hcap
  obtain ⟨m, hnm, hm⟩ := fair.polls n
  have hfin : ((start capacity path s).after schedule m).stream.finished := by
    obtain ⟨k, rfl⟩ := Nat.exists_eq_add_of_le hnm
    clear hm hnm
    induction k with
    | zero => exact hn
    | succ k ih => exact finished_turn ih _
  have hrest := (seen_and_remainder capacity path s fair.stays m).2
  rw [items_remainder_of_finished hfin] at hrest
  refine ⟨m + 1, ?_⟩
  rw [after, hm, turn]
  generalize (start capacity path s).after schedule m = c at hfin hrest ⊢
  have hlen := congrArg List.length hrest
  rw [List.length_drop, List.length_nil] at hlen
  have hstarved : c.starved = false := by
    cases hs : c.sender <;> simp [starved, hs, hfin]
  rw [poll, hstarved]
  simp only [Bool.false_eq_true, if_false, List.length_append, List.length_singleton]
  omega

theorem map_range_getElem? {β : Type} (items : List β) (k : Nat) :
    (List.range (items.length + k)).map (items[·]?) = items.map some ++ List.replicate k none := by
  refine List.ext_getElem? fun i ↦ ?_
  rcases Nat.lt_or_ge i items.length with hi | hi
  · rw [List.getElem?_append_left (by rwa [List.length_map])]
    simp [hi, Nat.lt_add_right k hi]
  · rw [List.getElem?_append_right (by rwa [List.length_map])]
    by_cases hk : i < items.length + k
    · simp [hk, hi, Nat.sub_lt_left_of_lt_add hi hk]
    · simp [hk, Nat.sub_lt_iff_lt_add hi]
      omega

/-- Under a fair schedule the consumer is given all items and then the end. -/
theorem exists_drained (capacity : Nat) (path : StorePath) (s : Sender α)
    (fair : Turn.Fair schedule) (hcap : 0 < capacity) :
    ∃ n k, ((start capacity path s).after schedule n).seen =
      (ArchiveStream.ofMessages path (s.run none).2).items.map some ++
        List.replicate (k + 1) none := by
  obtain ⟨n, hn⟩ := exists_end_seen capacity path s fair hcap
  obtain ⟨k, hk⟩ := Nat.exists_eq_add_of_lt hn
  refine ⟨n, k, ?_⟩
  have hseen := (seen_and_remainder capacity path s fair.stays n).1
  rw [hk, Nat.add_assoc, map_range_getElem?] at hseen
  exact hseen

/-! ## Archives -/

theorem ending_lastMessage (path : StorePath) (outcome : Except Fault Unit) :
    ArchiveStream.ending path (some (Producer.lastMessage outcome))
      = match outcome with
        | .ok () => none
        | .error f => some (.ofArchive path f) := by
  cases outcome <;> rfl

theorem chunks_and_failure (path : StorePath) (chunks : List Bytes) {m : Message}
    (h : m.isTerminal) :
    (ArchiveStream.ofMessages path (chunks.map .chunk ++ [m])).chunks = chunks ∧
      (ArchiveStream.ofMessages path (chunks.map .chunk ++ [m])).failure
        = ArchiveStream.ending path (some m) := by
  induction chunks with
  | nil => simp [ArchiveStream.ofMessages, ArchiveStream.chunks, ArchiveStream.failure, h]
  | cons chunk chunks ih =>
    simpa [ArchiveStream.ofMessages, ArchiveStream.chunks, ArchiveStream.failure,
      Message.isTerminal, Message.chunk?] using ih

theorem isTerminal_lastMessage (outcome : Except Fault Unit) :
    (Producer.lastMessage outcome).isTerminal := by
  cases outcome <;> rfl

/-- **The stream of an archive is the same under every schedule and every capacity.** Its chunks
are within their bounds, and hold all accepted bytes if the producer succeeds. If not, they hold a
first part of them, and one error stands behind them. After that there is only the end, and under
a fair schedule it is reached. -/
theorem archive_under_every_schedule (path : StorePath) (p : Producer (Except Fault Unit))
    (chunkSize : Nat) {capacity : Nat} (hcap : 0 < capacity) {schedule : Nat → Turn}
    (stays : ∀ n, schedule n ≠ .leave) :
    let whole := ArchiveStream.ofMessages path ((p.transmit chunkSize).run none).2
    let c := (start capacity path (p.transmit chunkSize)).after schedule
    (∀ chunk ∈ whole.chunks, chunk ≠ [] ∧ chunk.length ≤ chunkSize) ∧
    (match p.account chunkSize with
      | (.ok (), accepted) => whole.chunks.flatten = accepted ∧ whole.failure = none
      | (.error f, accepted) =>
        whole.chunks.flatten <+: accepted ∧ whole.failure = some (.ofArchive path f)) ∧
    (∀ n,
      (c n).seen = (List.range (c n).seen.length).map
        ((whole.chunks.map .ok ++ whole.failure.toList.map .error)[·]?) ∧
      (c n).stream.waiting.length ≤ capacity ∧
      ¬((c n).blocked ∧ (c n).starved)) ∧
    (Turn.Fair schedule →
      ∃ n, whole.chunks.length + whole.failure.toList.length < (c n).seen.length) := by
  intro whole c
  refine ⟨?_, ?_, fun n ↦ ⟨?_, ?_, ?_⟩, fun fair ↦ ?_⟩
  · obtain ⟨chunks, hrun, hbounds, -⟩ := p.run_transmit chunkSize
    simp only [whole, hrun, chunks_and_failure path chunks (isTerminal_lastMessage _)]
    exact hbounds
  · obtain ⟨chunks, hrun, -, hpart, hall⟩ := p.run_transmit chunkSize
    simp only [whole, hrun, chunks_and_failure path chunks (isTerminal_lastMessage _),
      ending_lastMessage]
    rcases haccount : p.account chunkSize with ⟨_ | _, accepted⟩
    · rw [haccount] at hpart
      exact ⟨hpart, rfl⟩
    · rw [haccount] at hall
      exact ⟨hall rfl, rfl⟩
  · exact (seen_and_remainder capacity path (p.transmit chunkSize) stays n).1
  · exact length_waiting_after_le (c := start capacity path (p.transmit chunkSize))
      (Nat.zero_le _) schedule n
  · rintro ⟨hblocked, hstarved⟩
    have hn : 0 < (c n).capacity := by
      rw [capacity_after]
      exact hcap
    rw [not_blocked_of_starved hn hstarved] at hblocked
    cases hblocked
  · obtain ⟨n, hn⟩ := exists_end_seen capacity path (p.transmit chunkSize) fair hcap
    exact ⟨n, by simpa [ArchiveStream.items] using hn⟩

/-- Two bytes are flushed, a third is lost in the buffer, and the producer breaks off. -/
theorem archive_of_panicking_producer :
    let p : Producer (Except Fault Unit) :=
      .write [1, 2] fun _ ↦ .flush fun _ ↦ .write [3] fun _ ↦ .done (.error (.panicked none))
    let c := (start 1 default (p.transmit 2)).after Turn.alternating
    0 < 1 ∧ (∀ n, Turn.alternating n ≠ .leave) ∧
      p.account 2 = (.error (.panicked none), [1, 2, 3]) ∧
      ∃ n, 2 < (c n).seen.length ∧
        (c n).seen = (List.range (c n).seen.length).map
          ([.ok [1, 2], .error (.archive default (.panicked none))][·]?) := by
  intro p c
  have haccount : p.account 2 = (.error (.panicked none), [1, 2, 3]) := by
    simp [p, Producer.account, Producer.recorded, Producer.chunked, Sender.emit]
  have hrun : (p.transmit 2).run none = ((), [.chunk [1, 2], .failed (.panicked none)]) := by
    simp [p, Producer.transmit, Producer.chunked, Sender.emit]
  obtain ⟨-, -, hseen, hend⟩ := archive_under_every_schedule default p 2 Nat.zero_lt_one
    Turn.fair_alternating.stays
  obtain ⟨n, hn⟩ := hend Turn.fair_alternating
  rw [hrun] at hn
  refine ⟨Nat.zero_lt_one, Turn.fair_alternating.stays, haccount, n, hn, ?_⟩
  have hn := (hseen n).1
  rw [hrun] at hn
  exact hn

end Channel

end NixStore
