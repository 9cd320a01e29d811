import NixStore.Stream.Archive

/-!
# Bounded channels

The channel between a sender and the consumer of a stream, with every order in which the two can
take their turns. A channel keeps a bounded number of messages; a message is sent only when there
is room for it, and a poll that finds none waits as long as one may still come. Once the stream
has ended, or the consumer has left, nothing more finds a receiver.

A turn of a side that has to wait leaves everything as it is, so a schedule is any sequence of
turns, and each prefix of one is a run.
-/

namespace NixStore

/-- A sender, the stream of the messages under way, and what the stream has given. -/
structure Channel (α : Type) where
  capacity : Nat
  sender : Sender α
  /-- The consumer's end: the messages under way, and whether any more are taken. -/
  stream : ArchiveStream
  /-- What the polls that did not wait have given, the oldest first. -/
  seen : List (Option (Except StoreError Bytes))

/-- Whose turn it is. -/
inductive Turn where
  | send
  | poll
  /-- The consumer drops its end. -/
  | leave
deriving DecidableEq

namespace Channel

variable {α : Type}

/-- A channel before the first message. -/
def start (capacity : Nat) (path : StorePath) (s : Sender α) : Channel α :=
  ⟨capacity, s, .ofMessages path [], []⟩

/-- Whether the sender waits for room. -/
def blocked (c : Channel α) : Bool :=
  match c.sender with
  | .done _ => false
  | .send .. => !c.stream.finished && c.capacity ≤ c.stream.waiting.length

/-- Whether the consumer waits for a message. -/
def starved (c : Channel α) : Bool :=
  match c.sender with
  -- a sender that has ended has closed the channel from its side
  | .done _ => false
  | .send .. => !c.stream.finished && c.stream.waiting.isEmpty

def send (c : Channel α) : Channel α :=
  match c.sender with
  | .done _ => c
  | .send m next =>
    if c.blocked then c
    else if c.stream.finished then { c with sender := next false }
    else
      { c with
        sender := next true
        stream := { c.stream with waiting := c.stream.waiting ++ [m] } }

def poll (c : Channel α) : Channel α :=
  if c.starved then c
  else { c with stream := c.stream.next.2, seen := c.seen ++ [c.stream.next.1] }

/-- What a turn comes to. What is under way when the consumer leaves is gone. -/
def turn (c : Channel α) : Turn → Channel α
  | .send => c.send
  | .poll => c.poll
  | .leave => { c with stream := ⟨c.stream.path, [], true⟩ }

/-- The channel after the first turns of a schedule. -/
def after (c : Channel α) (schedule : Nat → Turn) : Nat → Channel α
  | 0 => c
  | n + 1 => (c.after schedule n).turn (schedule n)

end Channel

namespace Turn

/-- Both sides get their turns again and again, and the consumer does not leave. -/
structure Fair (schedule : Nat → Turn) : Prop where
  sends : ∀ n, ∃ m, n ≤ m ∧ schedule m = .send
  polls : ∀ n, ∃ m, n ≤ m ∧ schedule m = .poll
  stays : ∀ n, schedule n ≠ .leave

/-- The two sides by turns. -/
def alternating (n : Nat) : Turn := if n % 2 = 0 then .send else .poll

theorem fair_alternating : Fair alternating := by
  refine ⟨fun n ↦ ⟨2 * n, by omega, ?_⟩, fun n ↦ ⟨2 * n + 1, by omega, ?_⟩, fun n ↦ ?_⟩
  · simp [alternating]
  · simp [alternating]
  · rw [alternating]
    split <;> decide

end Turn

end NixStore
