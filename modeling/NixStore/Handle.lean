import NixStore.Config.Basic
import NixStore.Engine.Closure
import NixStore.SetupGuard
import NixStore.Stream.Archive

/-!
# Handles

A handle is how the users of a store reach its engine. They name paths by their bytes, so a name
that is malformed is refused before the engine is asked anything. Errors of the engine come back
with the operation and the path that they concern; an engine that breaks off fails the one
operation that needed it.
-/

namespace NixStore

/-- How the start of a stream fails: with an error, or by breaking off with a message. -/
inductive StreamFault where
  | error (e : StoreError)
  | panicked (message : Text)

/-- An open store. -/
structure Handle (m : Type → Type) where
  engine : Engine m
  /-- The size of the chunks of archives. -/
  chunkSize : Nat
  /-- The number of chunks kept between a producer and its consumer. -/
  channelCapacity : Nat

namespace Handle

/-! ## Opening -/

/-- The handle of an engine that is open already. -/
def ofEngine {m : Type → Type} (e : Engine m) : Handle m :=
  ⟨e, Config.default.chunkSize, Config.default.channelCapacity⟩

/-- Opens a store: checks its configuration, runs the set-up of stores of this kind if it has not
succeeded yet, and opens an engine. -/
def openStore {m : Type → Type} {κ : Type} [DecidableEq κ] (guard : SetupGuard κ) (kind : κ)
    (setup : Except EngineError Unit) (openEngine : Config → Except EngineError (Engine m))
    (config : Config) : Except StoreError (Handle m) × SetupGuard κ :=
  match config.validate with
  -- the set-up is not tried with a configuration that is refused
  | .error e => (.error (.unavailable (.config e)), guard)
  | .ok () =>
    match guard.runOnce kind setup with
    | (.error e, guard) => (.error (.unavailable (.setup e)), guard)
    | (.ok (), guard) =>
      match openEngine config with
      | .error e => (.error (.unavailable (.opening e)), guard)
      | .ok engine => (.ok ⟨engine, config.chunkSize, config.channelCapacity⟩, guard)

variable {m : Type → Type}

/-- Changes the size of chunks; there is at least one byte in each. -/
def withChunkSize (h : Handle m) (n : Nat) : Handle m := { h with chunkSize := max n 1 }

/-- Changes the number of chunks kept; at least one is. -/
def withChannelCapacity (h : Handle m) (n : Nat) : Handle m :=
  { h with channelCapacity := max n 1 }

def storeDir (h : Handle m) : StoreDir := h.engine.storeDir

def describe (h : Handle m) : String :=
  "StoreHandle \x7b store_dir: StoreDir(" ++ Text.quote h.storeDir.text ++
    s!"), chunk_size: {h.chunkSize}, channel_capacity: {h.channelCapacity}, .. \x7d"

/-! ## Questions -/

variable [Monad m]

def named (name : Bytes) : ExceptT StoreError m StorePath :=
  match StorePath.ofBytes name with
  | .ok p => pure p
  | .error e => throw (.invalidPath e)

/-- Asks the engine a question about a path. -/
def ask {α : Type} (operation : Operation) (p : StorePath) (question : ExceptT Fault m α) :
    ExceptT StoreError m α :=
  question.adapt (.ofQuery operation p)

/-- The record of a path that was read already. -/
def record (h : Handle m) (p : StorePath) : ExceptT StoreError m PathInfo := do
  match ← ask .pathInfo p (h.engine.pathInfo p) with
  | some info => return info
  | none => throw (.notFound p)

def pathInfo (h : Handle m) (name : Bytes) : ExceptT StoreError m PathInfo := do
  h.record (← named name)

def isValid (h : Handle m) (name : Bytes) : ExceptT StoreError m Bool := do
  let p ← named name
  ask .validity p (h.engine.isValid p)

/-- The paths in the closure of a path, in order. -/
def closure (h : Handle m) (name : Bytes) (policy : ClosurePolicy) :
    ExceptT StoreError m (List Text) := do
  let p ← named name
  let found ← ask .closure p (h.engine.closure policy p)
  return found.toList.map (·.text)

/-- The failure of a question about a hash part. -/
def hashPartFailed (hash : HashPart) : Fault → StoreError
  | .error e => .query .hashPart hash.text (.engine e)
  | .panicked t => .query .hashPart hash.text (.panicked t)

def ofHashPart (h : Handle m) (digits : Bytes) : ExceptT StoreError m (Option StorePath) :=
  match HashPart.ofBytes digits with
  | .error e => throw (.invalidPath e)
  | .ok hash => (h.engine.ofHashPart hash).adapt (hashPartFailed hash)

/-! ## Archives -/

/-- Starts the archive of a path. The consumer takes all of it, or leaves after `room` messages have
been sent. Without a runtime there is nothing to run the producer on. A channel that cannot
be made breaks off the start, and a buffer that cannot be made breaks off the producer before it
asks the engine anything. -/
def start (h : Handle m) (runtime : Bool) (room : Option Nat) (p : StorePath) :
    ExceptT StreamFault m ArchiveStream := do
  if !runtime then throw (.error (.unavailable (.noRuntime p)))
  if ArchiveStream.maxCapacity < h.channelCapacity then
    throw (.panicked (text "a semaphore may not have more than MAX_PERMITS permits"))
  -- the producer breaks off without a word, so the stream just ends
  if ArchiveStream.maxChunkSize < h.chunkSize then return .ofMessages p []
  let producer ← ExceptT.lift (h.engine.archive p)
  return .ofMessages p ((producer.transmit h.chunkSize).run room).2

/-- Reads a path that a user named, to start a stream. -/
def streamed (name : Bytes) : ExceptT StreamFault m StorePath :=
  (named name).adapt .error

def stream (h : Handle m) (runtime : Bool) (room : Option Nat) (name : Bytes) :
    ExceptT StreamFault m ArchiveStream := do
  h.start runtime room (← streamed name)

def reader (h : Handle m) (runtime : Bool) (name : Bytes) :
    ExceptT StreamFault m ArchiveReader := do
  return .ofStream (← h.stream runtime none name)

section

variable {n : Type → Type} [Monad n] [MonadLiftT m n]

/-- Writes the archive of a path to a sink, and flushes it once the archive is complete. -/
def streamArchive (h : Handle m) (name : Bytes) (sink : Sink n) :
    ExceptT StreamFault n Unit := do
  let s ← ExceptT.mk (liftM (h.stream true none name).run)
  (s.copyTo sink).adapt .error
  (sink.finish s.path).adapt .error

/-- Whether a record and the digest of an archive agree, as far as the record goes. -/
def agrees (info : PathInfo) (found : ArchiveDigest) : Bool :=
  (info.archiveHash.isEmpty || found.isNamedBy info.archiveHash) &&
    (match info.archiveSize with
      | none => true
      | some size => size.toNat = found.size)

/-- Writes the archive of a path to a sink and gives its digest. The path's record is read first;
an archive that it does not describe fails before the sink is flushed. -/
def streamArchiveHashed (h : Handle m) (name : Bytes) (sink : Sink n) :
    ExceptT StreamFault n ArchiveDigest := do
  let p ← streamed name
  let info ← ExceptT.mk (liftM ((h.record p).adapt StreamFault.error).run)
  let s ← ExceptT.mk (liftM (h.start true none p).run)
  (s.copyTo sink).adapt .error
  let found := s.digest
  -- a sink is flushed only once the archive is known to be the recorded one
  if agrees info found then
    (sink.finish p).adapt .error
    return found
  else throw (.error (.archive p (.mismatch info.archiveHash found)))

end

end Handle

end NixStore
