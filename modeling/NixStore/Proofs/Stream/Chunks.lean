import NixStore.Stream.Sender

/-!
# The chunks of an archive

What a producer sends over a channel whose receiver takes everything. Its bytes are those of its
calls that were accepted, and a chunk is never empty and never longer than the chunk size. A
producer that succeeds has sent all its bytes when it ends, and one that fails has sent a part of
them, up to what was in the buffer.

What is accepted of a call is told by the answer to it, so it is written down by a second producer
that makes the same calls: `Producer.recorded`. It knows nothing of chunks.
-/

namespace NixStore

namespace Producer

/-- The producer that makes the same calls and also gives the bytes that were accepted, behind
those in `accepted`. -/
def recorded {α : Type} (accepted : Bytes) : Producer α → Producer (α × Bytes)
  | done a => done (a, accepted)
  | write data next =>
    write data fun
      | .ok n => (next (.ok n)).recorded (accepted ++ data.take n)
      | .error e => (next (.error e)).recorded accepted
  | flush next => flush fun r ↦ (next r).recorded accepted

/-- What a producer returns and the bytes of its calls that are accepted, when its chunks are
taken as they come. -/
def account {α : Type} (chunkSize : Nat) (p : Producer α) : α × Bytes :=
  (((p.recorded []).chunked chunkSize #[]).run none).1.1

end Producer

/-! ## Cutting -/

/-- Bytes are cut into chunks, with what is left in the buffer behind them. -/
structure Cut (chunkSize : Nat) (bytes : Bytes) (chunks : List Bytes) (buffer : Bytes) : Prop where
  bounds : ∀ chunk ∈ chunks, chunk ≠ [] ∧ chunk.length ≤ chunkSize
  length_le : buffer.length ≤ chunkSize
  flatten : chunks.flatten ++ buffer = bytes

namespace Cut

variable {chunkSize : Nat} {bytes more buffer rest : Bytes} {chunks chunks' : List Bytes}

theorem of_length_le (h : buffer.length ≤ chunkSize) : Cut chunkSize buffer [] buffer :=
  ⟨by simp, h, rfl⟩

theorem trans (h : Cut chunkSize bytes chunks buffer)
    (h' : Cut chunkSize (buffer ++ more) chunks' rest) :
    Cut chunkSize (bytes ++ more) (chunks ++ chunks') rest := by
  refine ⟨fun chunk hc ↦ ?_, h'.length_le, ?_⟩
  · rcases List.mem_append.1 hc with hc | hc
    · exact h.bounds chunk hc
    · exact h'.bounds chunk hc
  · rw [List.flatten_append, List.append_assoc, h'.flatten, ← List.append_assoc, h.flatten]

theorem emit {buffer : Array UInt8} (h : buffer.size ≤ chunkSize) :
    ∃ chunks, (Sender.emit buffer).run none = (.ok (), chunks.map .chunk) ∧
      Cut chunkSize buffer.toList chunks [] := by
  rw [Sender.emit]
  by_cases hempty : buffer.isEmpty
  · have hnil : buffer.toList = [] := by simpa using hempty
    rw [if_pos hempty, hnil]
    exact ⟨[], rfl, of_length_le (Nat.zero_le _)⟩
  · rw [if_neg hempty]
    refine ⟨[buffer.toList], by simp, ?_, Nat.zero_le _, by simp⟩
    simpa using ⟨by simpa using hempty, h⟩

end Cut

namespace Producer

variable {chunkSize : Nat}

theorem take_length_take (n : Nat) (data : Bytes) :
    data.take (data.take n).length = data.take n := by
  rw [List.length_take, ← List.take_take, List.take_length]

/-- A call that writes is answered with the number of bytes that were taken. -/
theorem run_chunked_write {buffer : Array UInt8} (h : buffer.size ≤ chunkSize) (data : Bytes) :
    ∃ n chunks rest, Cut chunkSize (buffer.toList ++ data.take n) chunks rest.toList ∧
      ∀ {α : Type} (next : Except IoError Nat → Producer α),
        ((write data next).chunked chunkSize buffer).run none
          = ((((next (.ok n)).chunked chunkSize rest).run none).1,
            chunks.map .chunk ++ (((next (.ok n)).chunked chunkSize rest).run none).2) := by
  by_cases hfull : chunkSize ≤ buffer.size
  · -- the full buffer is emitted, and what is taken starts a new one
    obtain ⟨chunks, hemit, hcut⟩ := Cut.emit h
    refine ⟨(data.take chunkSize).length, chunks, (data.take chunkSize).toArray, ?_, ?_⟩
    · rw [take_length_take]
      have hle : (data.take chunkSize).length ≤ chunkSize := List.length_take_le _ _
      simpa using hcut.trans (Cut.of_length_le hle)
    · intro α next
      rw [chunked, if_pos hfull, Sender.run_bind, hemit]
  · refine ⟨(data.take (chunkSize - buffer.size)).length, [],
      buffer ++ data.take (chunkSize - buffer.size), ?_, ?_⟩
    · rw [take_length_take, Array.toList_appendList]
      refine Cut.of_length_le ?_
      rw [List.length_append, List.length_take, Array.length_toList]
      omega
    · intro α next
      rw [chunked, if_neg hfull]
      rfl

theorem run_chunked_flush {buffer : Array UInt8} (h : buffer.size ≤ chunkSize) :
    ∃ chunks, Cut chunkSize buffer.toList chunks [] ∧
      ∀ {α : Type} (next : Except IoError Unit → Producer α),
        ((flush next).chunked chunkSize buffer).run none
          = ((((next (.ok ())).chunked chunkSize #[]).run none).1,
            chunks.map .chunk ++ (((next (.ok ())).chunked chunkSize #[]).run none).2) := by
  obtain ⟨chunks, hemit, hcut⟩ := Cut.emit h
  refine ⟨chunks, hcut, fun next ↦ ?_⟩
  rw [chunked, Sender.run_bind, hemit]

/-- One run of a producer, with and without writing down what is accepted. -/
theorem run_chunked {α : Type} (p : Producer α) :
    ∀ (buffer : Array UInt8) (accepted : Bytes), buffer.size ≤ chunkSize →
      ∃ a rest new chunks,
        (p.chunked chunkSize buffer).run none = ((a, rest), chunks.map .chunk) ∧
        ((p.recorded accepted).chunked chunkSize buffer).run none
          = (((a, accepted ++ new), rest), chunks.map .chunk) ∧
        Cut chunkSize (buffer.toList ++ new) chunks rest.toList := by
  induction p with
  | done a =>
    intro buffer accepted h
    refine ⟨a, buffer, [], [], rfl, by rw [List.append_nil]; rfl, ?_⟩
    rw [List.append_nil]
    exact Cut.of_length_le h
  | write data next ih =>
    intro buffer accepted h
    obtain ⟨n, first, middle, hfirst, hwrite⟩ := run_chunked_write h data
    obtain ⟨a, rest, new, chunks, hrun, hrec, hcut⟩ :=
      ih (.ok n) middle (accepted ++ data.take n) hfirst.length_le
    refine ⟨a, rest, data.take n ++ new, first ++ chunks, ?_, ?_, ?_⟩
    · rw [hwrite, hrun, List.map_append]
    · rw [recorded, hwrite, hrec, List.map_append, List.append_assoc]
    · rw [← List.append_assoc]
      exact hfirst.trans hcut
  | flush next ih =>
    intro buffer accepted h
    obtain ⟨first, hfirst, hflush⟩ := run_chunked_flush h
    obtain ⟨a, rest, new, chunks, hrun, hrec, hcut⟩ :=
      ih (.ok ()) #[] accepted (Nat.zero_le _)
    refine ⟨a, rest, new, first ++ chunks, ?_, ?_, hfirst.trans hcut⟩
    · rw [hflush, hrun, List.map_append]
    · rw [recorded, hflush, hrec, List.map_append]

theorem account_fst {α : Type} (chunkSize : Nat) (p : Producer α) :
    (p.account chunkSize).1 = ((p.chunked chunkSize #[]).run none).1.1 := by
  obtain ⟨a, rest, new, chunks, hrun, hrec, -⟩ := run_chunked p #[] [] (Nat.zero_le chunkSize)
  rw [account, hrec, hrun]

/-! ## Transmitting -/

/-- The last message, by what the producer returned. -/
def lastMessage : Except Fault Unit → Message
  | .ok () => .done
  | .error f => .failed f

theorem run_transmit (chunkSize : Nat) (p : Producer (Except Fault Unit)) :
    ∃ chunks : List Bytes, (p.transmit chunkSize).run none
        = ((), chunks.map .chunk ++ [lastMessage (p.account chunkSize).1]) ∧
      (∀ chunk ∈ chunks, chunk ≠ [] ∧ chunk.length ≤ chunkSize) ∧
      chunks.flatten <+: (p.account chunkSize).2 ∧
      ((p.account chunkSize).1 = .ok () → chunks.flatten = (p.account chunkSize).2) := by
  obtain ⟨outcome, rest, new, chunks, hrun, hrec, hcut⟩ :=
    run_chunked p #[] [] (Nat.zero_le chunkSize)
  have haccount : p.account chunkSize = (outcome, new) := by
    rw [account, hrec]
    rfl
  rw [haccount]
  cases outcome with
  | error f =>
    refine ⟨chunks, ?_, hcut.bounds, ⟨rest.toList, hcut.flatten⟩, by simp⟩
    simp [transmit, hrun, lastMessage]
  | ok _ =>
    obtain ⟨last, hemit, hlast⟩ := Cut.emit (show rest.size ≤ chunkSize from hcut.length_le)
    have hwhole : Cut chunkSize (new ++ []) (chunks ++ last) [] := by
      refine hcut.trans ?_
      rw [List.append_nil]
      exact hlast
    have hflatten : (chunks ++ last).flatten = new := by simpa using hwhole.flatten
    refine ⟨chunks ++ last, ?_, hwhole.bounds, ⟨[], by simpa using hflatten⟩, fun _ ↦ hflatten⟩
    simp [transmit, hrun, hemit, lastMessage]

end Producer

end NixStore
