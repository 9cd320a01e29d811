import NixStore.Engine.Query
import NixStore.Handle

/-!
# Requests

What users ask of a handle, as data, so that something can be said of all operations at once. A
request concerns a path or a hash part, which is named by bytes. A stream or a reader is taken to
its end, so that each request comes to success or to an error. What a request gives when it succeeds
is left out.
-/

namespace NixStore

/-- An operation of a handle on a path or a hash part. -/
inductive Request where
  | pathInfo
  | validity
  | closure (policy : ClosurePolicy)
  | hashPart
  | stream
  | reader
  | transfer
  | hashedTransfer

/-- The path or hash part that a request concerns, unless the bytes are not the name of one. -/
def Request.subject (request : Request) (name : Bytes) : Except StorePathError Text :=
  match request with
  | hashPart => (HashPart.ofBytes name).map (·.text)
  | _ => (StorePath.ofBytes name).map (·.text)

theorem Request.subject_of_ne {request : Request} (h : request ≠ hashPart) (name : Bytes) :
    request.subject name = (StorePath.ofBytes name).map (·.text) := by
  cases request with
  | hashPart => exact absurd rfl h
  | _ => rfl

/-- The path or hash part that an error names as the one that was asked about. -/
def StoreError.subject? : StoreError → Option Text
  | notFound p => some p.text
  | query _ subject _ => some subject
  | archive p _ => some p.text
  | unavailable _ => none
  | invalidPath _ => none

namespace StoreError

@[simp] theorem subject?_ofQuery (operation : Operation) (p : StorePath) (f : Fault) :
    (ofQuery operation p f).subject? = some p.text := by
  rcases f with e | t
  · cases e <;> rfl
  · rfl

@[simp] theorem subject?_ofArchive (p : StorePath) (f : Fault) :
    (ofArchive p f).subject? = some p.text := by
  rcases f with e | t
  · cases e <;> rfl
  · rfl

end StoreError

/-- A sink within a larger system, in which its calls change nothing else. -/
def Sink.inside {σ : Type} (m : Type → Type) [Monad m] (sink : Sink (StateM σ)) :
    Sink (StateT σ m) where
  write data := fun s ↦ pure ((sink.write data).run s).run
  flush := fun s ↦ pure (sink.flush.run s).run

namespace Handle

/-- The handle whose calls of its engine are written down. -/
def observed {τ : Type} (h : Handle (StateM τ)) : Handle (StateM (τ × List EngineCall)) :=
  ⟨h.engine.observed, h.chunkSize, h.channelCapacity⟩

variable {m n : Type → Type} [Monad m] [Monad n] [MonadLiftT m n]

/-- Asks the engine, and leaves out the answer. -/
def asks {α : Type} (question : ExceptT StoreError m α) : ExceptT StreamFault n Unit := do
  let _ ← ExceptT.mk (liftM (question.adapt StreamFault.error).run)
  return ()

/-- Starts a stream or a reader, and takes it to its end. -/
def drains {α : Type} (failure : α → Option StoreError) (start : ExceptT StreamFault m α) :
    ExceptT StreamFault n Unit := do
  let s ← ExceptT.mk (liftM start.run)
  match failure s with
  | none => return ()
  | some e => throw (.error e)

/-- Carries out a request; a transfer goes to a sink. -/
def perform (h : Handle m) (sink : Sink n) (name : Bytes) : Request → ExceptT StreamFault n Unit
  | .pathInfo => asks (h.pathInfo name)
  | .validity => asks (h.isValid name)
  | .closure policy => asks (h.closure name policy)
  | .hashPart => asks (h.ofHashPart name)
  | .stream => drains (·.failure) (h.stream true none name)
  | .reader => drains (·.readToEnd.2) (h.reader true name)
  | .transfer => h.streamArchive name sink
  | .hashedTransfer => do
    let _ ← h.streamArchiveHashed name sink
    return ()

end Handle

end NixStore
