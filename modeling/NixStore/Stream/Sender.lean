import NixStore.Stream.Producer

/-!
# Cutting bytes into chunks

The bytes of a producer go to its consumer as messages over a channel: chunks, and at the end one
message that says how the producer ended. A sender is what is left to do on this side of the
channel: a tree of messages to be sent, each with what follows if it finds a receiver and if it
does not.

Between the producer's calls and the messages stands a buffer. A chunk leaves it only when it is
full and more is written, when the producer asks for a flush, or at the end; so every chunk
between two flushes is full except perhaps the last. When the receiver is gone, the buffered bytes
are lost and the call fails.
-/

namespace NixStore

/-- What is sent over the channel. -/
inductive Message where
  | chunk (bytes : Bytes)
  /-- The archive is complete. -/
  | done
  | failed (cause : Fault)
deriving DecidableEq, Repr

namespace Message

def chunk? : Message → Option Bytes
  | chunk bytes => some bytes
  | _ => none

def isTerminal : Message → Bool
  | chunk _ => false
  | _ => true

end Message

/-- What is left to be sent, ending with a value of type `α`. -/
inductive Sender (α : Type) where
  | done (result : α)
  /-- Sends a message, and goes on with whether it found a receiver. -/
  | send (message : Message) (next : Bool → Sender α)

namespace Sender

def bind {α β : Type} (s : Sender α) (f : α → Sender β) : Sender β :=
  match s with
  | done a => f a
  | send m next => send m fun received ↦ (next received).bind f

instance : Monad Sender where
  pure := done
  bind := bind

@[simp] theorem pure_eq_done {α : Type} (a : α) : (pure a : Sender α) = done a := rfl

@[simp] theorem bind_eq_bind {α β : Type} (s : Sender α) (f : α → Sender β) :
    s >>= f = s.bind f := rfl

/-- Sends to a receiver that takes all messages, or that leaves after `room` of them; `sent` are
the messages sent before. Gives the result, and all messages that found the receiver. -/
def runFrom {α : Type} (room : Option Nat) (sent : Array Message) : Sender α → α × Array Message
  | done a => (a, sent)
  | send m next =>
    match room with
    | none => (next true).runFrom none (sent.push m)
    | some (n + 1) => (next true).runFrom (some n) (sent.push m)
    | some 0 => (next false).runFrom (some 0) sent

/-- Sends to a receiver that takes all messages, or that leaves after `room` of them. -/
def run {α : Type} (room : Option Nat) (s : Sender α) : α × List Message :=
  let (a, sent) := s.runFrom room #[]
  (a, sent.toList)

theorem runFrom_eq {α : Type} (room : Option Nat) (sent : Array Message) (s : Sender α) :
    s.runFrom room sent = ((s.run room).1, sent ++ (s.run room).2.toArray) := by
  induction s generalizing room sent with
  | done a => simp [run, runFrom]
  | send m next ih =>
    rcases room with _ | _ | n
    · simp only [run, runFrom]
      rw [ih true none (sent.push m), ih true none (#[].push m)]
      simp
    · simp only [run, runFrom]
      rw [ih false (some 0) sent]
      rfl
    · simp only [run, runFrom]
      rw [ih true (some n) (sent.push m), ih true (some n) (#[].push m)]
      simp

@[simp] theorem run_done {α : Type} (room : Option Nat) (a : α) :
    (done a).run room = (a, []) := rfl

/-- With nobody leaving, a message is sent and what follows it comes after. -/
@[simp] theorem run_send {α : Type} (m : Message) (next : Bool → Sender α) :
    (send m next).run none = (((next true).run none).1, m :: ((next true).run none).2) := by
  simp only [run, runFrom]
  rw [runFrom_eq]
  simp [run]

@[simp] theorem run_bind {α β : Type} (s : Sender α) (f : α → Sender β) :
    (s.bind f).run none = (((f (s.run none).1).run none).1,
      (s.run none).2 ++ ((f (s.run none).1).run none).2) := by
  induction s with
  | done a => rfl
  | send m next ih =>
    rw [bind, run_send, ih true, run_send]
    rfl

/-- Sends the buffered bytes as a chunk, if there are any. -/
def emit (buffer : Array UInt8) : Sender (Except IoError Unit) :=
  if buffer.isEmpty then done (.ok ())
  else
    send (.chunk buffer.toList) fun received ↦
      done (if received then .ok () else .error .consumerGone)

end Sender

namespace Producer

/-- Cuts the bytes of a producer into chunks of `chunkSize` bytes, some of them in the buffer
already. Gives what the producer ends with, and the bytes in the buffer then. -/
def chunked {α : Type} (chunkSize : Nat) (buffer : Array UInt8) :
    Producer α → Sender (α × Array UInt8)
  | done a => .done (a, buffer)
  | write data next =>
    if chunkSize ≤ buffer.size then
      -- the full buffer goes out before anything new is taken
      (Sender.emit buffer).bind fun
        | .ok () =>
          let taken := data.take chunkSize
          (next (.ok taken.length)).chunked chunkSize taken.toArray
        | .error e => (next (.error e)).chunked chunkSize #[]
    else
      -- only what still fits, which may be less than was offered
      let taken := data.take (chunkSize - buffer.size)
      (next (.ok taken.length)).chunked chunkSize (buffer ++ taken)
  | flush next => (Sender.emit buffer).bind fun r ↦ (next r).chunked chunkSize #[]

/-- Sends the archive of a producer: its chunks, with what is left in the buffer if it succeeds,
and a last message. -/
def transmit (chunkSize : Nat) (p : Producer (Except Fault Unit)) : Sender Unit := do
  let (outcome, buffer) ← p.chunked chunkSize #[]
  let last ← match outcome with
    -- what is buffered is dropped
    | .error f => pure (.failed f)
    | .ok () => do
      match ← Sender.emit buffer with
      | .ok () => pure .done
      | .error e => pure (.failed (.error (.io .sendingChunk e)))
  Sender.send last fun _ ↦ .done ()

end Producer

end NixStore
