import NixStore.Proofs.Stream.Pieces
import NixStore.Proofs.Stream.Progress

/-!
# How chunks are cut

The buffer between a producer and its chunks always holds the last piece of the segment that is not
ended, and the pieces in front of it have been sent. Each call keeps that, because what is accepted
changes the last piece only. A piece that is full stays in the buffer until more is written, and
then it is followed by another piece; so what is lost when the producer fails is the last piece,
full or not.

A consumer that does not leave takes every message, because its stream ends only with the last one.
What it is given is then known from the run of the sender alone.
-/

namespace NixStore

/-! ## The buffer -/

/-- What was sent of some segments, and what is in the buffer. -/
structure Held (size : Nat) (segments : List Bytes × Bytes) (sent : List Bytes) (buffer : Bytes) :
    Prop where
  sent_eq : sent = segments.1.flatMap (pieces size) ++ (pieces size segments.2).dropLast
  buffer_eq : buffer = lastPiece size segments.2

namespace Held

variable {size : Nat} {segments : List Bytes × Bytes} {sent : List Bytes} {buffer more : Bytes}

theorem start (size : Nat) : Held size ([], []) [] [] :=
  ⟨by rw [pieces_nil]; rfl, (lastPiece_nil size).symm⟩

theorem length_le (hpos : 0 < size) (h : Held size segments sent buffer) : buffer.length ≤ size :=
  h.buffer_eq ▸ length_lastPiece_le hpos _

theorem append (hpos : 0 < size) (h : Held size segments sent buffer) (hmore : more ≠ []) :
    Held size (segments.1, segments.2 ++ more)
      (sent ++ (pieces size (buffer ++ more)).dropLast) (lastPiece size (buffer ++ more)) := by
  obtain ⟨rfl, rfl⟩ := h
  refine ⟨?_, (lastPiece_append hpos _ hmore).symm⟩
  change _ = segments.1.flatMap (pieces size) ++ (pieces size (segments.2 ++ more)).dropLast
  rw [dropLast_pieces_append hpos segments.2 hmore, List.append_assoc]

theorem take (hpos : 0 < size) (h : Held size segments sent buffer) (hmore : more ≠ [])
    (hfits : (buffer ++ more).length ≤ size) :
    Held size (segments.1, segments.2 ++ more) sent (buffer ++ more) := by
  have := h.append hpos hmore
  rwa [dropLast_pieces_of_length_le hfits, lastPiece_of_length_le hfits, List.append_nil] at this

theorem write (hpos : 0 < size) (h : Held size segments sent buffer) (hfull : buffer.length = size)
    (hmore : more ≠ []) (hfits : more.length ≤ size) :
    Held size (segments.1, segments.2 ++ more) (sent ++ [buffer]) more := by
  have := h.append hpos hmore
  rwa [dropLast_pieces_append_of_length_eq hpos hfull hmore, dropLast_pieces_of_length_le hfits,
    lastPiece_append_of_length_eq hpos hfull hmore, lastPiece_of_length_le hfits] at this

theorem all_eq (hpos : 0 < size) (h : Held size segments sent buffer) :
    segments.1.flatMap (pieces size) ++ pieces size segments.2 = sent ++ pieces size buffer := by
  rw [pieces_eq hpos segments.2, h.sent_eq, h.buffer_eq, List.append_assoc]

theorem all_eq_of_nil (hpos : 0 < size) (h : Held size segments sent []) :
    segments.1.flatMap (pieces size) ++ pieces size segments.2 = sent := by
  rw [h.all_eq hpos, pieces_nil, List.append_nil]

theorem all_eq_of_ne_nil (hpos : 0 < size) (h : Held size segments sent buffer)
    (hne : buffer ≠ []) :
    segments.1.flatMap (pieces size) ++ pieces size segments.2 = sent ++ [buffer] := by
  rw [h.all_eq hpos, pieces_of_length_le hne (h.length_le hpos)]

theorem of_all (h : segments.1.flatMap (pieces size) ++ pieces size segments.2 = sent) :
    Held size (segments.1 ++ [segments.2], []) sent [] where
  sent_eq := by
    rw [← h, List.flatMap_append, List.flatMap_singleton, pieces_nil]
    exact (List.append_nil _).symm
  buffer_eq := (lastPiece_nil size).symm

end Held

namespace Answered

theorem segments_append_singleton (calls : List Answered) (call : Answered) :
    segments (calls ++ [call]) = segment (segments calls) call := by
  rw [segments, List.foldl_append]
  rfl

end Answered

namespace Work

variable {size : Nat} {gone : Bool} {w w' : Work} {calls new : List Answered}
  {messages : List Message}

/-- What has been sent after some calls, by what is being done. -/
def Sent (size : Nat) (calls : List Answered) (messages : List Message) : Work → Prop
  | running _ buffer => ∃ chunks, messages = chunks.map .chunk ∧
      Held size (Answered.segments calls) chunks buffer.toList
  | writing chunk .. => ∃ chunks, messages = chunks.map .chunk ∧
      Held size (Answered.segments calls) chunks chunk ∧ chunk.length = size
  | flushing chunk _ | closing chunk => ∃ chunks, messages = chunks.map .chunk ∧
      Held size (Answered.segments calls) chunks chunk ∧ chunk ≠ []
  | ending outcome last => messages = (Answered.chunks size calls outcome).map .chunk ∧
      last = Producer.lastMessage outcome
  | ended outcome =>
      messages = (Answered.chunks size calls outcome).map .chunk ++ [Producer.lastMessage outcome]

theorem take_ne_nil {data : Bytes} {n : Nat} (h : data ≠ []) (hn : 0 < n) : data.take n ≠ [] := by
  rw [ne_eq, List.take_eq_nil_iff, not_or]
  exact ⟨Nat.ne_of_gt hn, h⟩

/-- A call that is answered at once leaves what was sent as it should be. -/
theorem Advances.sent (h : Advances size false w w' new) (hpos : 0 < size)
    (hs : w.Sent size calls messages) (hnew : ∀ data answer, .write data answer ∈ new → data ≠ []) :
    w'.Sent size (calls ++ new) messages := by
  cases h with
  | @take data next buffer room =>
    obtain ⟨chunks, rfl, hheld⟩ := hs
    have hdata : data ≠ [] := hnew _ _ (List.mem_singleton_self _)
    have hroom : 0 < size - buffer.size := by
      rcases room with hempty | hlt
      · rw [Array.isEmpty_iff.1 hempty]
        exact hpos
      · omega
    have hfits : (buffer.toList ++ data.take (size - buffer.size)).length ≤ size := by
      rw [List.length_append, List.length_take, Array.length_toList]
      omega
    refine ⟨chunks, rfl, ?_⟩
    rw [Answered.segments_append_singleton, Answered.segment, Answered.accepted,
      Producer.take_length_take, Array.toList_appendList]
    exact hheld.take hpos (take_ne_nil hdata hroom) hfits
  | @write data next buffer full nonempty =>
    obtain ⟨chunks, rfl, hheld⟩ := hs
    rw [List.append_nil]
    exact ⟨chunks, rfl, hheld, Nat.le_antisymm (hheld.length_le hpos) full⟩
  | skip empty =>
    obtain ⟨chunks, rfl, hheld⟩ := hs
    rw [Array.toList_eq_nil_iff.2 (Array.isEmpty_iff.1 empty)] at hheld
    refine ⟨chunks, rfl, ?_⟩
    rw [Answered.segments_append_singleton]
    exact .of_all (hheld.all_eq_of_nil hpos)
  | flush nonempty =>
    obtain ⟨chunks, rfl, hheld⟩ := hs
    rw [List.append_nil]
    exact ⟨chunks, rfl, hheld, by simpa using nonempty⟩
  | succeed empty =>
    obtain ⟨chunks, rfl, hheld⟩ := hs
    rw [Array.toList_eq_nil_iff.2 (Array.isEmpty_iff.1 empty)] at hheld
    rw [List.append_nil]
    exact ⟨congrArg (List.map _) (hheld.all_eq_of_nil hpos).symm, rfl⟩
  | close nonempty =>
    obtain ⟨chunks, rfl, hheld⟩ := hs
    rw [List.append_nil]
    exact ⟨chunks, rfl, hheld, by simpa using nonempty⟩
  | fail =>
    obtain ⟨chunks, rfl, hheld⟩ := hs
    rw [List.append_nil]
    exact ⟨congrArg (List.map _) hheld.sent_eq, rfl⟩
  | stop _ _ lost => cases lost
  | ended => rwa [List.append_nil]

theorem sent_resume (hpos : 0 < size) {m : Message} (hm : w.message? = some m)
    (hs : w.Sent size calls messages)
    (hnew : ∀ data answer, .write data answer ∈ (w.resume size true).2 → data ≠ []) :
    (w.resume size true).1.Sent size (calls ++ (w.resume size true).2) (messages ++ [m]) := by
  cases w with
  | running | ended => cases hm
  | writing chunk data next =>
    obtain rfl : Message.chunk chunk = m := Option.some.inj hm
    obtain ⟨chunks, rfl, hheld, hfull⟩ := hs
    have hdata : data ≠ [] := hnew _ _ (List.mem_singleton_self _)
    refine ⟨chunks ++ [chunk], by rw [List.map_append]; rfl, ?_⟩
    simp only [resume, if_true]
    rw [Answered.segments_append_singleton, Answered.segment, Answered.accepted,
      Producer.take_length_take]
    exact hheld.write hpos hfull (take_ne_nil hdata hpos) (List.length_take_le _ _)
  | flushing chunk next =>
    obtain rfl : Message.chunk chunk = m := Option.some.inj hm
    obtain ⟨chunks, rfl, hheld, hne⟩ := hs
    refine ⟨chunks ++ [chunk], by rw [List.map_append]; rfl, ?_⟩
    simp only [resume, if_true]
    rw [Answered.segments_append_singleton]
    exact .of_all (hheld.all_eq_of_ne_nil hpos hne)
  | closing chunk =>
    obtain rfl : Message.chunk chunk = m := Option.some.inj hm
    obtain ⟨chunks, rfl, hheld, hne⟩ := hs
    simp only [resume, if_true, List.append_nil]
    refine ⟨?_, rfl⟩
    rw [Answered.chunks]
    simp only [hheld.all_eq_of_ne_nil hpos hne, List.map_append]
    rfl
  | ending outcome last =>
    obtain rfl : last = m := Option.some.inj hm
    obtain ⟨rfl, rfl⟩ := hs
    simp only [resume, List.append_nil]
    rfl

theorem Advances.write_taken (h : Advances size gone w w' new) (hpos : 0 < size) {data : Bytes}
    {answer : Except IoError Nat} (hcall : .write data answer ∈ new) (hdata : data ≠ []) :
    ∃ n, answer = .ok n ∧ 0 < n ∧ n ≤ min data.length size := by
  have hlen := List.length_pos_iff.2 hdata
  cases h with
  | @take data next buffer room =>
    cases List.mem_singleton.1 hcall
    refine ⟨_, rfl, ?_⟩
    have hroom : buffer.size < size := by
      rcases room with hempty | hlt
      · rw [Array.isEmpty_iff.1 hempty]
        exact hpos
      · exact hlt
    rw [List.length_take]
    omega
  | skip => cases List.mem_singleton.1 hcall
  | _ => cases hcall

theorem write_taken_resume (hpos : 0 < size) {data : Bytes} {answer : Except IoError Nat}
    (hcall : .write data answer ∈ (w.resume size true).2) (hdata : data ≠ []) :
    ∃ n, answer = .ok n ∧ 0 < n ∧ n ≤ min data.length size := by
  have hlen := List.length_pos_iff.2 hdata
  cases w with
  | writing chunk data' next =>
    cases List.mem_singleton.1 hcall
    refine ⟨_, rfl, ?_⟩
    rw [List.length_take]
    omega
  | flushing => cases List.mem_singleton.1 hcall
  | running | closing | ending | ended => cases hcall

end Work

namespace Transmission

variable {t : Transmission} {schedule : Nat → Turn}

/-! ## A consumer that stays -/

/-- As long as the producer has not ended, the consumer takes what comes. -/
def Open (t : Transmission) : Prop :=
  (∃ outcome, t.work = .ended outcome) ∨
    t.stream.finished = false ∧ ∀ m ∈ t.stream.waiting, m.isTerminal = false

theorem send_cases_of_open (h : t.Open) :
    (∃ work calls, t.work.Advances t.chunkSize false work calls ∧
      t.send = { t with work, calls := t.calls ++ calls }) ∨
    t.send = t ∨
    (∃ m, t.work.message? = some m ∧ t.stream.finished = false ∧
      t.send = { t with
        work := (t.work.resume t.chunkSize true).1
        calls := t.calls ++ (t.work.resume t.chunkSize true).2
        stream := { t.stream with waiting := t.stream.waiting ++ [m] } }) := by
  rcases t.send_cases with ⟨work, calls, hadv, hsend⟩ | ⟨-, hsend⟩ | ⟨m, hm, hfin, -⟩ |
    ⟨m, hm, hfin, -, hsend⟩
  · refine .inl ⟨work, calls, ?_, hsend⟩
    rcases h with ⟨outcome, hended⟩ | ⟨hfin, -⟩
    · rw [hended] at hadv ⊢
      cases hadv
      exact .ended _
    · rwa [hfin] at hadv
  · exact .inr (.inl hsend)
  · rcases h with ⟨outcome, hended⟩ | ⟨hopen, -⟩
    · rw [hended] at hm
      cases hm
    · rw [hfin] at hopen
      cases hopen
  · exact .inr (.inr ⟨m, hm, hfin, hsend⟩)

theorem open_poll (h : t.Open) : t.poll.Open := by
  cases hstarved : t.starved with
  | true => rwa [poll, hstarved]
  | false =>
    rw [poll, hstarved]
    rcases h with hended | ⟨hfin, hwaiting⟩
    · exact .inl hended
    · obtain ⟨chunkSize, capacity, work, calls, ⟨path, waiting, finished⟩, seen⟩ := t
      obtain rfl : finished = false := hfin
      cases waiting with
      | nil =>
        cases work with
        | ended outcome => exact .inl ⟨outcome, rfl⟩
        | running | writing | flushing | closing | ending => cases hstarved
      | cons m rest =>
        cases m with
        | chunk bytes => exact .inr ⟨rfl, fun m hm ↦ hwaiting m (List.mem_cons_of_mem _ hm)⟩
        | done | failed => cases hwaiting _ List.mem_cons_self

theorem open_send (h : t.Open) : t.send.Open := by
  rcases send_cases_of_open h with ⟨work, calls, hadv, hsend⟩ | hsend | ⟨m, hm, hfin, hsend⟩
  · rw [hsend]
    rcases h with ⟨outcome, hended⟩ | hopen
    · rw [hended] at hadv
      cases hadv
      exact .inl ⟨outcome, rfl⟩
    · exact .inr hopen
  · rwa [hsend]
  · have hwaiting : ∀ m ∈ t.stream.waiting, m.isTerminal = false := by
      rcases h with ⟨outcome, hended⟩ | ⟨-, hwaiting⟩
      · rw [hended] at hm
        cases hm
      · exact hwaiting
    have hchunk : ∀ chunk, m = .chunk chunk → t.send.Open := by
      rintro chunk rfl
      rw [hsend]
      refine .inr ⟨hfin, fun m hm ↦ ?_⟩
      rcases List.mem_append.1 hm with hm | hm
      · exact hwaiting m hm
      · rw [List.mem_singleton.1 hm]
        rfl
    cases hwork : t.work with
    | running | ended =>
      rw [hwork] at hm
      cases hm
    | writing chunk | flushing chunk | closing chunk =>
      rw [hwork] at hm
      exact hchunk chunk (Option.some.inj hm).symm
    | ending outcome last =>
      rw [hsend, hwork]
      exact .inl ⟨outcome, rfl⟩

theorem open_after (chunkSize capacity : Nat) (path : StorePath) (p : Producer (Except Fault Unit))
    {n : Nat} (stays : ∀ i < n, schedule i ≠ .leave) :
    ((start chunkSize capacity path p).after schedule n).Open := by
  induction n with
  | zero => exact .inr ⟨rfl, fun m hm ↦ absurd hm List.not_mem_nil⟩
  | succ n ih =>
    have hopen := ih fun i hi ↦ stays i (Nat.lt_succ_of_lt hi)
    rw [after]
    cases hturn : schedule n with
    | send => exact open_send hopen
    | poll => exact open_poll hopen
    | leave => exact absurd hturn (stays n (Nat.lt_succ_self n))

/-- What holds of a producer and its calls at the start, and is kept by each of its steps when every
message is received, holds as long as the consumer is there. -/
theorem work_induction {P : Work → List Answered → Prop} {chunkSize : Nat} (capacity : Nat)
    (path : StorePath) {p : Producer (Except Fault Unit)} (hstart : P (.running p #[]) [])
    (hadvance : ∀ w w' calls new, P w calls → Work.Advances chunkSize false w w' new →
      P w' (calls ++ new))
    (hresume : ∀ w m calls, P w calls → w.message? = some m →
      P (w.resume chunkSize true).1 (calls ++ (w.resume chunkSize true).2))
    {n : Nat} (stays : ∀ i < n, schedule i ≠ .leave) :
    P ((start chunkSize capacity path p).after schedule n).work
      ((start chunkSize capacity path p).after schedule n).calls := by
  induction n with
  | zero => exact hstart
  | succ n ih =>
    have stays' : ∀ i < n, schedule i ≠ .leave := fun i hi ↦ stays i (Nat.lt_succ_of_lt hi)
    have hopen := open_after chunkSize capacity path p stays'
    obtain ⟨hchunk, -⟩ := (start chunkSize capacity path p).limits_after schedule n
    replace ih := ih stays'
    rw [after]
    generalize (start chunkSize capacity path p).after schedule n = t at ih hopen hchunk
    obtain rfl : t.chunkSize = chunkSize := hchunk
    cases hturn : schedule n with
    | leave => exact absurd hturn (stays n (Nat.lt_succ_self n))
    | poll =>
      rw [turn, poll]
      split <;> exact ih
    | send =>
      rw [turn]
      rcases send_cases_of_open hopen with ⟨work, calls, hadv, hsend⟩ | hsend | ⟨m, hm, -, hsend⟩
      · rw [hsend]
        exact hadvance _ _ _ _ ih hadv
      · rwa [hsend]
      · rw [hsend]
        exact hresume _ m _ ih hm

section

variable {chunkSize : Nat} (hsize : 0 < chunkSize) (capacity : Nat) (path : StorePath)
  (p : Producer (Except Fault Unit)) {n : Nat} (stays : ∀ i < n, schedule i ≠ .leave)

include hsize stays

/-- Writes take some of their bytes as long as the consumer is there. -/
theorem write_taken {data : Bytes} {answer : Except IoError Nat}
    (hcall : .write data answer ∈ ((start chunkSize capacity path p).after schedule n).calls)
    (hdata : data ≠ []) : ∃ k, answer = .ok k ∧ 0 < k ∧ k ≤ min data.length chunkSize := by
  refine work_induction (P := fun _ calls ↦ .write data answer ∈ calls →
    ∃ k, answer = .ok k ∧ 0 < k ∧ k ≤ min data.length chunkSize) capacity path
    (fun hnone ↦ absurd hnone List.not_mem_nil) ?_ ?_ stays hcall
  · intro w w' calls new ih hadv hcall
    rcases List.mem_append.1 hcall with hold | hnew
    · exact ih hold
    · exact hadv.write_taken hsize hnew hdata
  · intro w m calls ih _ hcall
    rcases List.mem_append.1 hcall with hold | hnew
    · exact ih hold
    · exact Work.write_taken_resume hsize hnew hdata

/-- What has been sent is as it should be, and the sender goes on from there. -/
theorem exists_sent (hwrites : ∀ data answer,
      .write data answer ∈ ((start chunkSize capacity path p).after schedule n).calls →
        data ≠ []) :
    ∃ messages, ((start chunkSize capacity path p).after schedule n).work.Sent chunkSize
        ((start chunkSize capacity path p).after schedule n).calls messages ∧
      ((p.transmit chunkSize).run none).2 = messages ++
        ((((start chunkSize capacity path p).after schedule n).work.sender chunkSize).run
          none).2 := by
  refine work_induction (P := fun w calls ↦ (∀ data answer, .write data answer ∈ calls →
    data ≠ []) → ∃ messages, w.Sent chunkSize calls messages ∧
      ((p.transmit chunkSize).run none).2 = messages ++ ((w.sender chunkSize).run none).2)
    capacity path (fun _ ↦ ⟨[], ⟨[], rfl, Held.start chunkSize⟩, rfl⟩) ?_ ?_ stays hwrites
  · intro w w' calls new ih hadv hwrites
    obtain ⟨messages, hsent, hwhole⟩ := ih fun data answer hcall ↦
      hwrites data answer (List.mem_append_left _ hcall)
    refine ⟨messages, hadv.sent hsize hsent fun data answer hcall ↦
      hwrites data answer (List.mem_append_right _ hcall), ?_⟩
    rcases hadv.sender_eq with hsame | ⟨hgone, -⟩
    · rw [hwhole, hsame]
    · cases hgone
  · intro w m calls ih hm hwrites
    obtain ⟨messages, hsent, hwhole⟩ := ih fun data answer hcall ↦
      hwrites data answer (List.mem_append_left _ hcall)
    refine ⟨messages ++ [m], Work.sent_resume hsize hm hsent fun data answer hcall ↦
      hwrites data answer (List.mem_append_right _ hcall), ?_⟩
    obtain ⟨next, hnext, htrue, -⟩ := Work.sender_eq_send chunkSize hm
    rw [hwhole, hnext, Sender.run_send, htrue, List.append_assoc]
    rfl

end

/-! ## The end -/

theorem ended_after {outcome : Except Fault Unit} {n m : Nat} (hnm : n ≤ m)
    (h : (t.after schedule n).work = .ended outcome) :
    (t.after schedule m).work = .ended outcome ∧
      (t.after schedule m).calls = (t.after schedule n).calls := by
  induction hnm with
  | refl => exact ⟨h, rfl⟩
  | @step m _ ih =>
    obtain ⟨hwork, hcalls⟩ := ih
    rw [after, ← hcalls]
    generalize t.after schedule m = u at hwork
    cases schedule m with
    | leave => exact ⟨hwork, rfl⟩
    | poll =>
      rw [turn, poll]
      split <;> exact ⟨hwork, rfl⟩
    | send =>
      rw [turn]
      rcases u.send_cases with ⟨_, _, hadv, hsend⟩ | ⟨-, hsend⟩ | ⟨_, hm, -, -⟩ | ⟨_, hm, -, -, -⟩
      · rw [hwork] at hadv
        cases hadv
        rw [hsend]
        exact ⟨rfl, List.append_nil _⟩
      · rw [hsend]
        exact ⟨hwork, rfl⟩
      all_goals
        rw [hwork] at hm
        cases hm

theorem seen_prefix_turn (t : Transmission) (x : Turn) : t.seen <+: (t.turn x).seen := by
  cases x with
  | leave => exact List.prefix_refl _
  | poll =>
    rw [turn, poll]
    split
    · exact List.prefix_refl _
    · exact List.prefix_append _ _
  | send =>
    have hsame : t.send.seen = t.seen := by
      rcases t.send_cases with ⟨_, _, -, h⟩ | ⟨-, h⟩ | ⟨_, -, -, h⟩ | ⟨_, -, -, -, h⟩ <;> rw [h]
    exact hsame ▸ List.prefix_refl _

theorem seen_prefix_after (t : Transmission) (schedule : Nat → Turn) {n m : Nat} (hnm : n ≤ m) :
    (t.after schedule n).seen <+: (t.after schedule m).seen := by
  induction hnm with
  | refl => exact List.prefix_refl _
  | @step m _ ih => exact ih.trans (seen_prefix_turn _ _)

theorem exists_length_seen (polls : ∀ n, ∃ m, n ≤ m ∧ schedule m = .poll) {n : Nat}
    {outcome : Except Fault Unit} (h : (t.after schedule n).work = .ended outcome) (k : Nat) :
    ∃ m, (t.after schedule m).work = .ended outcome ∧ k ≤ (t.after schedule m).seen.length := by
  induction k with
  | zero => exact ⟨n, h, Nat.zero_le _⟩
  | succ k ih =>
    obtain ⟨m, hm, hk⟩ := ih
    obtain ⟨l, hml, hl⟩ := polls m
    have hended := (ended_after hml hm).1
    refine ⟨l + 1, (ended_after (Nat.le_succ l) hended).1, ?_⟩
    have hstarved : (t.after schedule l).starved = false := by rw [starved, hended]
    have hlen := (seen_prefix_after t schedule hml).length_le
    rw [after, hl, turn, poll, hstarved]
    simp only [Bool.false_eq_true, if_false, List.length_append, List.length_singleton]
    omega

theorem items_of_sent {path : StorePath} {size : Nat} {calls : List Answered}
    {outcome : Except Fault Unit} {messages : List Message}
    (h : (Work.ended outcome).Sent size calls messages) :
    (ArchiveStream.ofMessages path messages).items = Answered.items path size calls outcome := by
  obtain ⟨hchunks, hfailure⟩ := Channel.chunks_and_failure path (Answered.chunks size calls outcome)
    (Channel.isTerminal_lastMessage outcome)
  rw [h, ArchiveStream.items, hchunks, hfailure, Channel.ending_lastMessage]
  cases outcome <;> rfl

/-- **Each segment is cut exactly.** The buffer never holds more than a chunk. As long as the
consumer is there, a write takes some of its bytes and no more than a chunk. A consumer that goes on
until the end is given the pieces of each segment: all of those that a flush has ended, and of the
last one all if the producer succeeds, and all but the last if it fails. -/
theorem chunks_cut_exactly (path : StorePath) (p : Producer (Except Fault Unit))
    {chunkSize capacity : Nat} (hsize : 0 < chunkSize) (hcap : 0 < capacity)
    (schedule : Nat → Turn) :
    let t := (start chunkSize capacity path p).after schedule
    (∀ n, (t n).work.buffered ≤ chunkSize) ∧
    (∀ n, (∀ i < n, schedule i ≠ .leave) → ∀ data answer, .write data answer ∈ (t n).calls →
      data ≠ [] → ∃ k, answer = .ok k ∧ 0 < k ∧ k ≤ min data.length chunkSize) ∧
    (Turn.Fair schedule → ∃ n outcome, (t n).work = .ended outcome ∧
      ((∀ data answer, .write data answer ∈ (t n).calls → data ≠ []) →
        ∃ k, (t n).seen = (Answered.items path chunkSize (t n).calls outcome).map some ++
          List.replicate (k + 1) none)) ∧
    (∀ segment : Bytes, (pieces chunkSize segment).flatten = segment ∧
      (pieces chunkSize segment).length = (segment.length + chunkSize - 1) / chunkSize ∧
      ∀ piece ∈ (pieces chunkSize segment).dropLast, piece.length = chunkSize) := by
  intro t
  refine ⟨fun n ↦ ?_, fun n stays data answer ↦ ?_, fun fair ↦ ?_, fun segment ↦ ?_⟩
  · exact buffered_after_le (t := start chunkSize capacity path p) (Nat.zero_le _) schedule n
  · exact write_taken hsize capacity path p stays
  · let whole := ArchiveStream.ofMessages path ((p.transmit chunkSize).run none).2
    obtain ⟨m, outcome, hm⟩ := exists_ended (t := start chunkSize capacity path p)
      ⟨fair.sends, .inl fair.polls⟩ hcap (length_waiting_after_le (Nat.zero_le _) schedule) 0
    obtain ⟨n, hended, hlen⟩ := exists_length_seen fair.polls hm (whole.items.length + 1)
    refine ⟨n, outcome, hended, fun hwrites ↦ ?_⟩
    obtain ⟨messages, hsent, hrun⟩ := exists_sent hsize capacity path p
      (fun i _ ↦ fair.stays i) hwrites
    rw [hended] at hsent hrun
    have hitems : whole.items = Answered.items path chunkSize (t n).calls outcome := by
      rw [← items_of_sent hsent]
      simp only [whole, hrun, Work.sender, Sender.run_done, List.append_nil]
    obtain ⟨schedule', n', hchannel, hstays⟩ :=
      exists_channel_after chunkSize capacity path p schedule n
    have hseen := (Channel.seen_and_remainder capacity path (p.transmit chunkSize)
      (hstays fair.stays) n').1
    rw [← hchannel] at hseen
    obtain ⟨k, hk⟩ := Nat.exists_eq_add_of_le hlen
    refine ⟨k, ?_⟩
    rw [← hitems, ← Channel.map_range_getElem?]
    have hlen' : (t n).seen.length = whole.items.length + (k + 1) := by
      rw [Nat.add_comm k, ← Nat.add_assoc]
      exact hk
    rw [← hlen']
    exact hseen
  · exact ⟨flatten_pieces hsize segment, length_pieces hsize segment,
      length_of_mem_dropLast_pieces hsize segment⟩

/-- A segment is flushed. Of the next one a full piece is sent and a byte is lost, since the
producer breaks off. -/
theorem chunks_of_panicking_producer :
    let p : Producer (Except Fault Unit) :=
      .write [1, 2] fun _ ↦ .flush fun _ ↦ .write [3, 4] fun _ ↦ .write [5] fun _ ↦
        .done (.error (.panicked none))
    let t := (start 2 1 default p).after Turn.alternating
    0 < 2 ∧ 0 < 1 ∧ Turn.Fair Turn.alternating ∧
      ∃ n k, (∀ data answer, .write data answer ∈ (t n).calls → data ≠ []) ∧
        (t n).seen = [some (.ok [1, 2]), some (.ok [3, 4]),
          some (.error (.archive default (.panicked none)))] ++ List.replicate (k + 1) none := by
  intro p t
  obtain ⟨-, -, hfair, -⟩ :=
    chunks_cut_exactly default p Nat.zero_lt_two Nat.zero_lt_one Turn.alternating
  obtain ⟨n, outcome, hended, hseen⟩ := hfair Turn.fair_alternating
  -- it has ended after twenty turns, and made the same calls whenever it has ended
  have hwork : (t 20).work = .ended (.error (.panicked none)) := by
    subst t p
    rfl
  have hcalls : (t 20).calls = [.write [1, 2] (.ok 2), .flush (.ok ()), .write [3, 4] (.ok 2),
      .write [5] (.ok 1)] := by
    subst t p
    rfl
  obtain ⟨hn, hcalls'⟩ := ended_after (Nat.le_max_left n 20) hended
  obtain ⟨h20, hcalls''⟩ := ended_after (Nat.le_max_right n 20) hwork
  obtain rfl : Except.error (.panicked none) = outcome := Work.ended.inj (h20.symm.trans hn)
  replace hcalls : (t n).calls = _ := (hcalls'.symm.trans hcalls'').trans hcalls
  have hwrites : ∀ data answer, .write data answer ∈ (t n).calls → data ≠ [] := by
    intro data answer hcall
    simp only [hcalls, List.mem_cons, Answered.write.injEq, reduceCtorEq, List.not_mem_nil,
      false_or, or_false] at hcall
    rcases hcall with ⟨rfl, -⟩ | ⟨rfl, -⟩ | ⟨rfl, -⟩ <;> exact List.cons_ne_nil _ _
  obtain ⟨k, hk⟩ := hseen hwrites
  rw [hcalls] at hk
  have hitems : Answered.items default 2 [.write [1, 2] (.ok 2), .flush (.ok ()),
      .write [3, 4] (.ok 2), .write [5] (.ok 1)] (.error (.panicked none)) =
        [.ok [1, 2], .ok [3, 4], .error (.archive default (.panicked none))] := by
    simp [Answered.items, Answered.chunks, Answered.segments, Answered.segment,
      Answered.accepted, pieces, StoreError.ofArchive]
  rw [hitems] at hk
  exact ⟨Nat.zero_lt_two, Nat.zero_lt_one, Turn.fair_alternating, n, k, hwrites, hk⟩

end Transmission

end NixStore
