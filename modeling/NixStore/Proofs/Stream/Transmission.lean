import NixStore.Proofs.Stream.Interleaving
import NixStore.Stream.Transmission

/-!
# Transmissions as channels

What a transmission still has to send is a sender. A call of the producer that sends nothing leaves
this sender as it is, so turn by turn a transmission is a channel with it, and whatever holds of all
channels holds of what the consumer of a transmission is given. Only when the consumer is gone does
a transmission leave out a last message that the sender still has; nobody would have received it.
-/

namespace NixStore

/-! ## What a turn can do -/

namespace Work

variable {chunkSize : Nat} {gone : Bool} {w : Work}

/-- What a turn in which no message is to be sent can do. -/
inductive Advances (chunkSize : Nat) (gone : Bool) : Work → Work → List Answered → Prop
  | take {data next} {buffer : Array UInt8}
      (room : buffer.isEmpty = true ∨ buffer.size < chunkSize) :
      Advances chunkSize gone (running (.write data next) buffer)
        (running (next (.ok (data.take (chunkSize - buffer.size)).length))
          (buffer ++ data.take (chunkSize - buffer.size)))
        [.write data (.ok (data.take (chunkSize - buffer.size)).length)]
  | write {data next} {buffer : Array UInt8} (full : chunkSize ≤ buffer.size)
      (nonempty : buffer.isEmpty = false) :
      Advances chunkSize gone (running (.write data next) buffer)
        (writing buffer.toList data next) []
  | skip {next} {buffer : Array UInt8} (empty : buffer.isEmpty = true) :
      Advances chunkSize gone (running (.flush next) buffer) (running (next (.ok ())) #[])
        [.flush (.ok ())]
  | flush {next} {buffer : Array UInt8} (nonempty : buffer.isEmpty = false) :
      Advances chunkSize gone (running (.flush next) buffer) (flushing buffer.toList next) []
  | succeed {buffer : Array UInt8} (empty : buffer.isEmpty = true) :
      Advances chunkSize gone (running (.done (.ok ())) buffer) (ending (.ok ()) .done) []
  | close {buffer : Array UInt8} (nonempty : buffer.isEmpty = false) :
      Advances chunkSize gone (running (.done (.ok ())) buffer) (closing buffer.toList) []
  | fail (f : Fault) (buffer : Array UInt8) :
      Advances chunkSize gone (running (.done (.error f)) buffer)
        (ending (.error f) (.failed f)) []
  | stop (e : EngineError) (buffer : Array UInt8) (lost : gone = true) :
      Advances chunkSize gone (running (.done (.error (.error e))) buffer)
        (ended (.error (.error e))) []
  | ended (outcome : Except Fault Unit) :
      Advances chunkSize gone (ended outcome) (ended outcome) []

theorem advances (h : w.message? = none) :
    Advances chunkSize gone w (w.advance chunkSize gone).1 (w.advance chunkSize gone).2 := by
  cases w with
  | writing | flushing | closing | ending => cases h
  | ended => exact .ended _
  | running p buffer =>
    cases hempty : buffer.isEmpty with
    | true =>
      cases p with
      | write data next =>
        simp only [advance, hempty, Bool.not_true, Bool.and_false, Bool.false_eq_true, if_false]
        exact .take (.inl hempty)
      | flush next =>
        simp only [advance, hempty, if_true]
        exact .skip hempty
      | done outcome =>
        rcases outcome with ⟨e | t⟩ | _
        · cases gone with
          | true => exact .stop e buffer rfl
          | false => exact .fail _ _
        · exact .fail _ _
        · simp only [advance, hempty, if_true]
          exact .succeed hempty
    | false =>
      cases p with
      | write data next =>
        by_cases hfull : chunkSize ≤ buffer.size
        · simp only [advance, hempty, hfull, decide_true, Bool.not_false, Bool.and_self, if_true]
          exact .write hfull hempty
        · simp only [advance, hempty, hfull, decide_false, Bool.false_and, Bool.false_eq_true,
            if_false]
          exact .take (.inr (Nat.lt_of_not_le hfull))
      | flush next =>
        simp only [advance, hempty, Bool.false_eq_true, if_false]
        exact .flush hempty
      | done outcome =>
        rcases outcome with ⟨e | t⟩ | _
        · cases gone with
          | true => exact .stop e buffer rfl
          | false => exact .fail _ _
        · exact .fail _ _
        · simp only [advance, hempty, Bool.false_eq_true, if_false]
          exact .close hempty

end Work

namespace Sender

theorem emit_of_isEmpty {buffer : Array UInt8} (h : buffer.isEmpty = true) :
    emit buffer = done (.ok ()) := if_pos h

theorem emit_of_not_isEmpty {buffer : Array UInt8} (h : buffer.isEmpty = false) :
    emit buffer = send (.chunk buffer.toList) fun received ↦
      done (if received then .ok () else .error .consumerGone) := by
  rw [emit, h]
  rfl

end Sender

namespace Producer

variable {chunkSize : Nat} {buffer : Array UInt8}

/-- Sends what a producer leaves when it returns. -/
def conclude (outcome : Except Fault Unit) (buffer : Array UInt8) : Sender Unit := do
  let last ← match outcome with
    | .error f => pure (.failed f)
    | .ok () => do
      match ← Sender.emit buffer with
      | .ok () => pure .done
      | .error e => pure (.failed (.error (.io .sendingChunk e)))
  Sender.send last fun _ ↦ .done ()

theorem conclude_of_isEmpty (h : buffer.isEmpty = true) :
    conclude (.ok ()) buffer = .send .done fun _ ↦ .done () := by
  simp only [conclude, Sender.emit_of_isEmpty h]
  rfl

theorem conclude_of_not_isEmpty (h : buffer.isEmpty = false) :
    conclude (.ok ()) buffer = .send (.chunk buffer.toList) fun received ↦
      .send (if received then .done else .failed (.error (.io .sendingChunk .consumerGone)))
        fun _ ↦ .done () := by
  simp only [conclude, Sender.emit_of_not_isEmpty h]
  exact congrArg (Sender.send _) (funext fun received ↦ by cases received <;> rfl)

/-- What is sent of a producer, with some bytes in the buffer already. -/
def remaining (chunkSize : Nat) (p : Producer (Except Fault Unit)) (buffer : Array UInt8) :
    Sender Unit :=
  (p.chunked chunkSize buffer).bind fun (outcome, buffer) ↦ conclude outcome buffer

theorem remaining_write_of_room (h : buffer.isEmpty = true ∨ buffer.size < chunkSize) (data : Bytes)
    (next : Except IoError Nat → Producer (Except Fault Unit)) :
    (write data next).remaining chunkSize buffer =
      (next (.ok (data.take (chunkSize - buffer.size)).length)).remaining chunkSize
        (buffer ++ data.take (chunkSize - buffer.size)) := by
  rw [remaining, chunked]
  split
  · next hfull =>
    obtain rfl : buffer = #[] := by
      simpa using h.resolve_right (Nat.not_lt.2 hfull)
    obtain rfl : chunkSize = 0 := Nat.le_zero.1 hfull
    rfl
  · rfl

theorem remaining_write_of_full (hfull : chunkSize ≤ buffer.size) (h : buffer.isEmpty = false)
    (data : Bytes) (next : Except IoError Nat → Producer (Except Fault Unit)) :
    (write data next).remaining chunkSize buffer = .send (.chunk buffer.toList) fun received ↦
      if received then
        (next (.ok (data.take chunkSize).length)).remaining chunkSize (data.take chunkSize).toArray
      else (next (.error .consumerGone)).remaining chunkSize #[] := by
  rw [remaining, chunked, if_pos hfull, Sender.emit_of_not_isEmpty h]
  exact congrArg (Sender.send _) (funext fun received ↦ by cases received <;> rfl)

theorem remaining_flush_of_isEmpty (h : buffer.isEmpty = true)
    (next : Except IoError Unit → Producer (Except Fault Unit)) :
    (flush next).remaining chunkSize buffer = (next (.ok ())).remaining chunkSize #[] := by
  rw [remaining, chunked, Sender.emit_of_isEmpty h]
  rfl

theorem remaining_flush_of_not_isEmpty (h : buffer.isEmpty = false)
    (next : Except IoError Unit → Producer (Except Fault Unit)) :
    (flush next).remaining chunkSize buffer = .send (.chunk buffer.toList) fun received ↦
      (next (if received then .ok () else .error .consumerGone)).remaining chunkSize #[] := by
  rw [remaining, chunked, Sender.emit_of_not_isEmpty h]
  rfl

theorem exists_send_remaining (chunkSize : Nat) (p : Producer (Except Fault Unit))
    (buffer : Array UInt8) :
    ∃ m next, p.remaining chunkSize buffer = .send m next := by
  induction p generalizing buffer with
  | done outcome =>
    rcases outcome with f | _
    · exact ⟨_, _, rfl⟩
    · cases hempty : buffer.isEmpty with
      | true => exact ⟨_, _, conclude_of_isEmpty hempty⟩
      | false => exact ⟨_, _, conclude_of_not_isEmpty hempty⟩
  | write data next ih =>
    by_cases room : buffer.isEmpty = true ∨ buffer.size < chunkSize
    · rw [remaining_write_of_room room]
      exact ih _ _
    · rw [not_or, Bool.not_eq_true, Nat.not_lt] at room
      exact ⟨_, _, remaining_write_of_full room.2 room.1 data next⟩
  | flush next ih =>
    cases hempty : buffer.isEmpty with
    | true =>
      rw [remaining_flush_of_isEmpty hempty]
      exact ih _ _
    | false => exact ⟨_, _, remaining_flush_of_not_isEmpty hempty next⟩

end Producer

namespace Work

variable {chunkSize : Nat} {w w' : Work} {calls : List Answered} {gone : Bool}

/-- What is still to be sent. -/
def sender (chunkSize : Nat) : Work → Sender Unit
  | running p buffer => p.remaining chunkSize buffer
  | writing chunk data next => .send (.chunk chunk) fun received ↦
      if received then
        (next (.ok (data.take chunkSize).length)).remaining chunkSize (data.take chunkSize).toArray
      else (next (.error .consumerGone)).remaining chunkSize #[]
  | flushing chunk next => .send (.chunk chunk) fun received ↦
      (next (if received then .ok () else .error .consumerGone)).remaining chunkSize #[]
  | closing chunk => .send (.chunk chunk) fun received ↦
      .send (if received then .done else .failed (.error (.io .sendingChunk .consumerGone)))
        fun _ ↦ .done ()
  | ending _ last => .send last fun _ ↦ .done ()
  | ended _ => .done ()

/-- A turn that sends nothing leaves as it is what is still to be sent, unless the consumer is gone
and the last message is left out. -/
theorem Advances.sender_eq (h : Advances chunkSize gone w w' calls) :
    w'.sender chunkSize = w.sender chunkSize ∨
      gone = true ∧ w'.sender chunkSize = .done () ∧
        ∃ m, w.sender chunkSize = .send m fun _ ↦ .done () := by
  cases h with
  | take room => exact .inl (Producer.remaining_write_of_room room _ _).symm
  | write full nonempty => exact .inl (Producer.remaining_write_of_full full nonempty _ _).symm
  | skip empty => exact .inl (Producer.remaining_flush_of_isEmpty empty _).symm
  | flush nonempty => exact .inl (Producer.remaining_flush_of_not_isEmpty nonempty _).symm
  | succeed empty => exact .inl (Producer.conclude_of_isEmpty empty).symm
  | close nonempty => exact .inl (Producer.conclude_of_not_isEmpty nonempty).symm
  | fail => exact .inl rfl
  | stop e buffer lost => exact .inr ⟨lost, rfl, _, rfl⟩
  | ended => exact .inl rfl

/-- A message is to be sent, and what follows is told by whether it is received. If not, the last
message may be left out. -/
theorem sender_eq_send (chunkSize : Nat) {m : Message} (h : w.message? = some m) :
    ∃ next, w.sender chunkSize = .send m next ∧
      next true = (w.resume chunkSize true).1.sender chunkSize ∧
      (next false = (w.resume chunkSize false).1.sender chunkSize ∨
        (w.resume chunkSize false).1.sender chunkSize = .done () ∧
          ∃ last, next false = .send last fun _ ↦ .done ()) := by
  cases w with
  | running | ended => cases h
  | writing chunk data next =>
    cases h
    exact ⟨_, rfl, rfl, .inl rfl⟩
  | flushing chunk next =>
    cases h
    exact ⟨_, rfl, rfl, .inl rfl⟩
  | closing chunk =>
    cases h
    exact ⟨_, rfl, rfl, .inr ⟨rfl, _, rfl⟩⟩
  | ending outcome last =>
    cases h
    exact ⟨_, rfl, rfl, .inl rfl⟩

end Work

namespace Channel

variable {α : Type}

theorem after_congr (c : Channel α) {schedule schedule' : Nat → Turn} {n : Nat}
    (h : ∀ i < n, schedule i = schedule' i) : c.after schedule n = c.after schedule' n := by
  induction n with
  | zero => rfl
  | succ n ih =>
    rw [after, after, ih fun i hi ↦ h i (Nat.lt_succ_of_lt hi), h n (Nat.lt_succ_self n)]

theorem exists_after (c : Channel α) (schedule : Nat → Turn) (n : Nat) (turns : List Turn) :
    ∃ schedule' n', c.after schedule' n' = turns.foldl turn (c.after schedule n) ∧
      ((∀ i, schedule i ≠ .leave) → .leave ∉ turns → ∀ i, schedule' i ≠ .leave) := by
  induction turns generalizing schedule n with
  | nil => exact ⟨schedule, n, rfl, fun h _ ↦ h⟩
  | cons x turns ih =>
    obtain ⟨schedule', n', hrun, hstays⟩ := ih (fun i ↦ if i < n then schedule i else x) (n + 1)
    have hsame : c.after (fun i ↦ if i < n then schedule i else x) n = c.after schedule n :=
      c.after_congr fun i hi ↦ if_pos hi
    refine ⟨schedule', n', ?_, fun hs hnot ↦ ?_⟩
    · rw [hrun, after, if_neg (Nat.lt_irrefl n), hsame]
      rfl
    · rw [List.mem_cons, not_or] at hnot
      refine hstays (fun i ↦ ?_) hnot.2
      split
      · exact hs i
      · exact fun h ↦ hnot.1 h.symm

end Channel

namespace Transmission

variable {t : Transmission}

theorem send_cases (t : Transmission) :
    (∃ work calls, t.work.Advances t.chunkSize t.stream.finished work calls ∧
      t.send = { t with work, calls := t.calls ++ calls }) ∨
    (t.blocked = true ∧ t.send = t) ∨
    (∃ m, t.work.message? = some m ∧ t.stream.finished = true ∧
      t.send = { t with
        work := (t.work.resume t.chunkSize false).1
        calls := t.calls ++ (t.work.resume t.chunkSize false).2 }) ∨
    (∃ m, t.work.message? = some m ∧ t.stream.finished = false ∧
      t.stream.waiting.length < t.capacity ∧
      t.send = { t with
        work := (t.work.resume t.chunkSize true).1
        calls := t.calls ++ (t.work.resume t.chunkSize true).2
        stream := { t.stream with waiting := t.stream.waiting ++ [m] } }) := by
  cases hm : t.work.message? with
  | none =>
    refine .inl ⟨_, _, Work.advances hm, ?_⟩
    rw [send, hm]
  | some m =>
    cases hblocked : t.blocked with
    | true =>
      refine .inr (.inl ⟨rfl, ?_⟩)
      simp only [send, hm, hblocked, if_true]
    | false =>
      cases hfin : t.stream.finished with
      | true =>
        refine .inr (.inr (.inl ⟨m, rfl, rfl, ?_⟩))
        simp only [send, hm, hblocked, hfin, Bool.false_eq_true, if_false, if_true, Bool.not_true]
      | false =>
        have room : t.stream.waiting.length < t.capacity := by
          simpa [blocked, hm, hfin] using hblocked
        refine .inr (.inr (.inr ⟨m, rfl, rfl, room, ?_⟩))
        simp only [send, hm, hblocked, hfin, Bool.false_eq_true, if_false, Bool.not_false]

/-! ## Channels -/

/-- The channel of a transmission. -/
def channel (t : Transmission) : Channel Unit :=
  ⟨t.capacity, t.work.sender t.chunkSize, t.stream, t.seen⟩

theorem starved_channel (t : Transmission) : t.channel.starved = t.starved := by
  obtain ⟨chunkSize, capacity, work, calls, stream, seen⟩ := t
  cases work with
  | ended => rfl
  | running p buffer =>
    obtain ⟨m, next, hsend⟩ := p.exists_send_remaining chunkSize buffer
    simp only [Channel.starved, channel, Work.sender, hsend, starved]
  | writing | flushing | closing | ending => rfl

theorem poll_channel (t : Transmission) : t.poll.channel = t.channel.poll := by
  rw [poll, Channel.poll, starved_channel]
  split <;> rfl

theorem exists_send_channel (t : Transmission) :
    ∃ turns : List Turn, .leave ∉ turns ∧ t.send.channel = turns.foldl Channel.turn t.channel := by
  have htwo : ∀ {m : Message} (capacity : Nat) (s : ArchiveStream)
      (seen : List (Option (Except StoreError Bytes))) (next : Bool → Sender Unit),
      s.finished = true → (⟨capacity, .send m next, s, seen⟩ : Channel Unit).turn .send =
        ⟨capacity, next false, s, seen⟩ := by
    rintro m capacity ⟨path, waiting, finished⟩ seen next rfl
    rfl
  rcases t.send_cases with ⟨work, calls, hadv, hsend⟩ | ⟨-, hsend⟩ | ⟨m, hm, hfin, hsend⟩ |
    ⟨m, hm, hfin, room, hsend⟩
  · rcases hadv.sender_eq with hsame | ⟨hgone, hdone, m, hlast⟩
    · exact ⟨[], List.not_mem_nil, by simp only [hsend, channel, hsame, List.foldl_nil]⟩
    · refine ⟨[.send], by simp, ?_⟩
      simp only [hsend, channel, hdone, hlast, List.foldl_cons, List.foldl_nil, htwo _ _ _ _ hgone]
  · exact ⟨[], List.not_mem_nil, by rw [hsend]; rfl⟩
  · obtain ⟨next, hnext, -, hfalse | ⟨hdone, last, hlast⟩⟩ :=
      Work.sender_eq_send t.chunkSize hm
    · refine ⟨[.send], by simp, ?_⟩
      simp only [hsend, channel, hnext, List.foldl_cons, List.foldl_nil, htwo _ _ _ _ hfin, hfalse]
    · refine ⟨[.send, .send], by simp, ?_⟩
      simp only [hsend, channel, hnext, List.foldl_cons, List.foldl_nil, htwo _ _ _ _ hfin, hlast,
        hdone]
  · obtain ⟨next, hnext, htrue, -⟩ := Work.sender_eq_send t.chunkSize hm
    refine ⟨[.send], by simp, ?_⟩
    have hroom : ¬t.capacity ≤ t.stream.waiting.length := Nat.not_le.2 room
    simp [hsend, channel, hnext, Channel.turn, Channel.send, Channel.blocked, hfin, hroom, htrue]

/-- A run of a transmission is a run of the channel with what the producer sends. -/
theorem exists_channel_after (chunkSize capacity : Nat) (path : StorePath)
    (p : Producer (Except Fault Unit)) (schedule : Nat → Turn) (n : Nat) :
    ∃ schedule' n', ((start chunkSize capacity path p).after schedule n).channel =
        (Channel.start capacity path (p.transmit chunkSize)).after schedule' n' ∧
      ((∀ i, schedule i ≠ .leave) → ∀ i, schedule' i ≠ .leave) := by
  induction n with
  | zero => exact ⟨schedule, 0, rfl, id⟩
  | succ n ih =>
    obtain ⟨schedule', n', hrun, hstays⟩ := ih
    rw [after]
    generalize (start chunkSize capacity path p).after schedule n = t at hrun
    obtain ⟨turns, hturns, hnot⟩ : ∃ turns : List Turn,
        (t.turn (schedule n)).channel = turns.foldl Channel.turn t.channel ∧
          (schedule n ≠ .leave → .leave ∉ turns) := by
      cases schedule n with
      | send =>
        obtain ⟨turns, hnot, hturns⟩ := t.exists_send_channel
        exact ⟨turns, hturns, fun _ ↦ hnot⟩
      | poll => exact ⟨[.poll], t.poll_channel, by simp⟩
      | leave => exact ⟨[.leave], rfl, fun h ↦ absurd rfl h⟩
    obtain ⟨schedule'', n'', hrun', hstays'⟩ := Channel.exists_after _ schedule' n' turns
    refine ⟨schedule'', n'', ?_, fun h ↦ hstays' (hstays h) (hnot (h n))⟩
    rw [hrun', hturns, hrun]

end Transmission

end NixStore
