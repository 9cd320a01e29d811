import NixStore.Error.Store
import NixStore.Stream.Sender

/-!
# Streams of archives

The consumer's side of an archive: chunks, then the end, and in front of the end an error if the
archive is not complete. It is not complete either if the sender went away without a last message.
After the end there is nothing but the end.
-/

namespace NixStore

/-- An archive that is being read. -/
structure ArchiveStream where
  path : StorePath
  /-- The messages that have not been taken yet. -/
  waiting : List Message
  finished : Bool

namespace ArchiveStream

/-- The greatest size of a chunk for which there can be a buffer. -/
def maxChunkSize : Nat := 0x7FFFFFFFFFFFFFFF

/-- The greatest number of messages that a channel can keep. -/
def maxCapacity : Nat := 0x1FFFFFFFFFFFFFFF

def ofMessages (path : StorePath) (messages : List Message) : ArchiveStream :=
  ⟨path, messages, false⟩

/-- What the consumer makes of the last message, or of there being none. -/
def ending (path : StorePath) : Option Message → Option StoreError
  | some .done => none
  | some (.failed cause) => some (.ofArchive path cause)
  | _ => some (.archive path .unfinished)

/-- The next item, if the stream has not ended. -/
def next (s : ArchiveStream) : Option (Except StoreError Bytes) × ArchiveStream :=
  if s.finished then (none, s)
  else
    match s.waiting with
    | .chunk bytes :: rest => (some (.ok bytes), { s with waiting := rest })
    | m :: rest => ((ending s.path (some m)).map .error, ⟨s.path, rest, true⟩)
    -- the sender went away without a last message
    | [] => ((ending s.path none).map .error, ⟨s.path, [], true⟩)

/-- Takes chunks, up to a number of them; `taken` are those taken before. -/
def takeChunks (s : ArchiveStream) (taken : Array Bytes) : Nat → List Bytes × ArchiveStream
  | 0 => (taken.toList, s)
  | n + 1 =>
    match s.waiting with
    | .chunk bytes :: rest => takeChunks ⟨s.path, rest, s.finished⟩ (taken.push bytes) n
    | _ => (taken.toList, s)

def chunks (s : ArchiveStream) : List Bytes :=
  if s.finished then [] else (s.waiting.takeWhile (!·.isTerminal)).filterMap Message.chunk?

def bytes (s : ArchiveStream) : Bytes := s.chunks.flatten

/-- The error in front of the end, if the archive is not complete. -/
def failure (s : ArchiveStream) : Option StoreError :=
  if s.finished then none else ending s.path (s.waiting.find? Message.isTerminal)

def outcome (s : ArchiveStream) : Except StoreError Unit := s.failure.elim (.ok ()) .error

def items (s : ArchiveStream) : List (Except StoreError Bytes) :=
  s.chunks.map .ok ++ s.failure.toList.map .error

def digest (s : ArchiveStream) : ArchiveDigest :=
  .ofHasher (s.chunks.foldl Sha256.Hasher.update Sha256.Hasher.start)

def describe (s : ArchiveStream) : String :=
  "NarStream \x7b path: StorePath(" ++ Text.quote s.path.text ++ "), finished: " ++
    (if s.finished then "true" else "false") ++ ", .. \x7d"

end ArchiveStream

/-! ## Reading through a buffer -/

/-- A reader that serves a stream's bytes in pieces of any size. -/
structure ArchiveReader where
  /-- What is left of the chunk taken last. -/
  rest : Bytes
  stream : ArchiveStream

namespace ArchiveReader

def ofStream (s : ArchiveStream) : ArchiveReader := ⟨[], s⟩

/-- Takes the next chunk that is not empty; an error of the stream stops the reader. The number
of waiting messages bounds the search. -/
def fill (s : ArchiveStream) : (bound : Nat) → Except StoreError Bytes × ArchiveStream
  | 0 => (.ok [], s)
  | bound + 1 =>
    match s.next with
    | (some (.ok []), s) => fill s bound
    | (some item, s) => (item, s)
    | (none, s) => (.ok [], s)

/-- Reads up to `n` bytes; none are read only at the end. -/
def read (r : ArchiveReader) (n : Nat) : Except StoreError Bytes × ArchiveReader :=
  match r.rest with
  | b :: rest => (.ok ((b :: rest).take n), ⟨(b :: rest).drop n, r.stream⟩)
  | [] =>
    match fill r.stream (r.stream.waiting.length + 1) with
    | (.error e, s) => (.error e, ⟨[], s⟩)
    | (.ok chunk, s) => (.ok (chunk.take n), ⟨chunk.drop n, s⟩)

/-- Reads into buffers of some sizes, one after the other, until nothing is read or an error comes.
Gives the bytes that were read, and how the archive ends if it came to that. -/
def readEach (r : ArchiveReader) : List Nat → Bytes × Option (Except StoreError Unit)
  | [] => ([], none)
  | n :: sizes =>
    match r.read n with
    | (.error e, _) => ([], some (.error e))
    | (.ok [], _) => ([], some (.ok ()))
    | (.ok (b :: bytes), r) =>
      let (more, outcome) := r.readEach sizes
      (b :: bytes ++ more, outcome)

/-- All bytes up to the end, and the error in front of it if there is one. -/
def readToEnd (r : ArchiveReader) : Bytes × Option StoreError :=
  (r.rest ++ r.stream.bytes, r.stream.failure)

end ArchiveReader

/-! ## Writing to a sink -/

namespace Sink

variable {n : Type → Type} [Monad n]

/-- Writes the chunks among some messages, and then fails if the archive is not complete. -/
def deliverMessages (sink : Sink n) (path : StorePath) : List Message → ExceptT StoreError n Unit
  | .chunk bytes :: rest => do
    match ← sink.deliver .zeroWrite bytes with
    | .ok () => sink.deliverMessages path rest
    | .error e => throw (.archive path (.sink e))
  | messages =>
    match ArchiveStream.ending path messages.head? with
    | none => pure ()
    | some e => throw e

/-- Flushes after the last byte of an archive. -/
def finish (sink : Sink n) (path : StorePath) : ExceptT StoreError n Unit := do
  match ← sink.flush with
  | .ok () => pure ()
  | .error e => throw (.archive path (.sink e))

end Sink

namespace ArchiveStream

variable {n : Type → Type} [Monad n]

/-- Writes what is left of a stream to a sink, without flushing it. -/
def copyTo (s : ArchiveStream) (sink : Sink n) : ExceptT StoreError n Unit :=
  if s.finished then pure () else sink.deliverMessages s.path s.waiting

end ArchiveStream

end NixStore
