import NixStore.Stream.Channel

/-!
# Transmissions

A channel with the producer whose archive goes over it, one call of the producer after the other. A
sender only tells which messages are still to be sent: what a producer does between two of them, and
what is in its buffer then, is not seen. Here each call is a turn, and a call that needs a message
to be sent waits in a state of its own. So the consumer may leave at any moment of the producer's
work, between two calls or while one of them waits, and it can be told what was accepted until then.

The calls are written down with their answers. Nothing that is done depends on that.
-/

namespace NixStore

/-- A call of a producer with its answer. -/
inductive Answered where
  | write (data : Bytes) (answer : Except IoError Nat)
  | flush (answer : Except IoError Unit)

namespace Answered

def error? : Answered → Option IoError
  | write _ (.error e) | flush (.error e) => some e
  | _ => none

/-- The bytes of a call that were accepted. -/
def accepted : Answered → Bytes
  | write data (.ok n) => data.take n
  | _ => []

end Answered

/-- What the producer's side of a channel is doing. -/
inductive Work where
  /-- The producer goes on, with some bytes in the buffer. -/
  | running (p : Producer (Except Fault Unit)) (buffer : Array UInt8)
  /-- A write waits until the full buffer is sent. -/
  | writing (chunk data : Bytes) (next : Except IoError Nat → Producer (Except Fault Unit))
  /-- A flush waits until the buffer is sent. -/
  | flushing (chunk : Bytes) (next : Except IoError Unit → Producer (Except Fault Unit))
  /-- The producer has succeeded, and what it left in the buffer is to be sent. -/
  | closing (chunk : Bytes)
  /-- The producer has returned, and the last message is to be sent. -/
  | ending (outcome : Except Fault Unit) (last : Message)
  | ended (outcome : Except Fault Unit)

namespace Work

/-- The message that is to be sent before anything else is done. -/
def message? : Work → Option Message
  | running .. | ended _ => none
  | writing chunk .. | flushing chunk _ | closing chunk => some (.chunk chunk)
  | ending _ last => some last

/-- The bytes in the buffer. What is to be sent is not in it any more. -/
def buffered : Work → Nat
  | running _ buffer => buffer.size
  | _ => 0

/-- A turn in which no message is to be sent, with the calls that are answered. A producer that
fails when nobody is `gone` has that told in a last message; one that breaks off does not ask. -/
def advance (chunkSize : Nat) (gone : Bool) : Work → Work × List Answered
  | running (.write data next) buffer =>
    if chunkSize ≤ buffer.size && !buffer.isEmpty then (writing buffer.toList data next, [])
    else
      let taken := data.take (chunkSize - buffer.size)
      (running (next (.ok taken.length)) (buffer ++ taken), [.write data (.ok taken.length)])
  | running (.flush next) buffer =>
    if buffer.isEmpty then (running (next (.ok ())) #[], [.flush (.ok ())])
    else (flushing buffer.toList next, [])
  | running (.done (.ok ())) buffer =>
    (if buffer.isEmpty then ending (.ok ()) .done else closing buffer.toList, [])
  | running (.done (.error (.error e))) _ =>
    (if gone then ended (.error (.error e))
      else ending (.error (.error e)) (.failed (.error e)), [])
  | running (.done (.error (.panicked t))) _ =>
    (ending (.error (.panicked t)) (.failed (.panicked t)), [])
  | w => (w, [])

/-- What follows when the message was `received` or found no receiver, with the calls that are
answered. -/
def resume (chunkSize : Nat) (received : Bool) : Work → Work × List Answered
  | writing _ data next =>
    if received then
      let taken := data.take chunkSize
      (running (next (.ok taken.length)) taken.toArray, [.write data (.ok taken.length)])
    else
      (running (next (.error .consumerGone)) #[], [.write data (.error .consumerGone)])
  | flushing _ next =>
    let answer := if received then .ok () else .error .consumerGone
    (running (next answer) #[], [.flush answer])
  | closing _ => (if received then ending (.ok ()) .done else ended (.ok ()), [])
  | ending outcome _ => (ended outcome, [])
  | w => (w, [])

end Work

/-- A producer, the stream of the messages under way, and what the stream has given. -/
structure Transmission where
  chunkSize : Nat
  capacity : Nat
  work : Work
  /-- The calls that were answered, the oldest first. -/
  calls : List Answered
  /-- The consumer's end: the messages under way, and whether any more are taken. -/
  stream : ArchiveStream
  /-- What the polls that did not wait have given, the oldest first. -/
  seen : List (Option (Except StoreError Bytes))

namespace Transmission

/-- A transmission before the first call. -/
def start (chunkSize capacity : Nat) (path : StorePath) (p : Producer (Except Fault Unit)) :
    Transmission :=
  ⟨chunkSize, capacity, .running p #[], [], .ofMessages path [], []⟩

/-- Whether the producer waits for room in the channel. -/
def blocked (t : Transmission) : Bool :=
  t.work.message?.isSome && !t.stream.finished && t.capacity ≤ t.stream.waiting.length

/-- Whether the consumer waits for a message. -/
def starved (t : Transmission) : Bool :=
  match t.work with
  -- a producer that has ended has closed the channel from its side
  | .ended _ => false
  | _ => !t.stream.finished && t.stream.waiting.isEmpty

def send (t : Transmission) : Transmission :=
  match t.work.message? with
  | none =>
    let (work, calls) := t.work.advance t.chunkSize t.stream.finished
    { t with work, calls := t.calls ++ calls }
  | some m =>
    if t.blocked then t
    else
      let (work, calls) := t.work.resume t.chunkSize (!t.stream.finished)
      { t with
        work
        calls := t.calls ++ calls
        stream :=
          if t.stream.finished then t.stream
          else { t.stream with waiting := t.stream.waiting ++ [m] } }

def poll (t : Transmission) : Transmission :=
  if t.starved then t
  else { t with stream := t.stream.next.2, seen := t.seen ++ [t.stream.next.1] }

/-- What a turn comes to. What is under way when the consumer leaves is gone. -/
def turn (t : Transmission) : Turn → Transmission
  | .send => t.send
  | .poll => t.poll
  | .leave => { t with stream := ⟨t.stream.path, [], true⟩ }

/-- The transmission after the first turns of a schedule. -/
def after (t : Transmission) (schedule : Nat → Turn) : Nat → Transmission
  | 0 => t
  | n + 1 => (t.after schedule n).turn (schedule n)

end Transmission

end NixStore
