import NixStore.Digest.Basic
import NixStore.Error.Engine
import NixStore.StorePath.Basic

/-!
# Errors of a store

What the users of a store see. Errors of engines appear here with the operation and the path that
they concern, except that a path which the engine does not know is reported as not found.
-/

namespace NixStore

/-- The operations of a store that ask its engine one question. -/
inductive Operation where
  | pathInfo
  | closure
  | validity
  | hashPart
deriving DecidableEq, Repr

def Operation.message : Operation → String
  | pathInfo => "query path info"
  | closure => "compute closure of"
  | validity => "check validity of"
  | hashPart => "look up hash part"

/-- Why there is no store to work with. -/
inductive Unavailable where
  | config (cause : ConfigError)
  /-- The engine's set-up for the whole process failed. -/
  | setup (cause : EngineError)
  | opening (cause : EngineError)
  /-- Nothing is there to run the producer of an archive on. -/
  | noRuntime (path : StorePath)
deriving DecidableEq

def Unavailable.message : Unavailable → String
  | config cause => cause.message
  | setup cause => s!"store initialization failed: {cause.message}"
  | opening cause => cause.message
  | noRuntime path =>
    s!"cannot stream {path.toString}: there is no reactor running, " ++
      "must be called from the context of a Tokio 1.x runtime"

/-- Why a question to the engine has no answer. -/
inductive QueryFailure where
  | engine (cause : EngineError)
  | panicked (message : Option Text)
deriving DecidableEq, Repr

def QueryFailure.message : QueryFailure → String
  | engine cause => cause.message
  | panicked (some t) => s!"task failed: task N panicked with message {Text.quote t}"
  | panicked none => "task failed: task N panicked"

/-- Why an archive is not complete. -/
inductive ArchiveFailure where
  | engine (cause : EngineError)
  | panicked (message : Option Text)
  /-- The producer is gone and has not said how it ended. -/
  | unfinished
  | sink (cause : IoError)
  /-- The archive is not the one that was recorded. -/
  | mismatch (recorded : Text) (found : ArchiveDigest)
deriving DecidableEq

def ArchiveFailure.message : ArchiveFailure → String
  | engine cause => cause.message
  | panicked t => "producer panicked: " ++ String.ofList (t.getD (text "unknown panic"))
  | unfinished => "producer exited without finishing the archive"
  | sink cause => s!"writing to sink: {cause.message}"
  | mismatch recorded found =>
    s!"archive does not match recorded hash {String.ofList recorded}: " ++
      s!"got {String.ofList found.render} ({found.size} bytes)"

/-- An error of a store. -/
inductive StoreError where
  | unavailable (cause : Unavailable)
  | invalidPath (cause : StorePathError)
  | notFound (path : StorePath)
  /-- The subject is the path or hash part that was asked about. -/
  | query (operation : Operation) (subject : Text) (cause : QueryFailure)
  | archive (path : StorePath) (cause : ArchiveFailure)
deriving DecidableEq

namespace StoreError

def message : StoreError → String
  | unavailable cause => s!"Store unavailable: {cause.message}"
  | invalidPath cause => s!"Invalid store path: {cause.message}"
  | notFound path => s!"path '{path.toString}' is not valid"
  | query operation subject cause =>
    s!"Failed to {operation.message} '{String.ofList subject}': {cause.message}"
  | archive path cause => s!"Failed to stream NAR of '{path.toString}': {cause.message}"

/-- Whether the error says that a path is not in the store. -/
def isNotFound : StoreError → Bool
  | notFound _ => true
  | _ => false

def ofQuery (operation : Operation) (path : StorePath) : Fault → StoreError
  | .error (.invalidPath _) => notFound path
  | .error e => query operation path.text (.engine e)
  | .panicked t => query operation path.text (.panicked t)

/-- The error of an archive whose producer failed. -/
def ofArchive (path : StorePath) : Fault → StoreError
  | .error (.invalidPath _) => notFound path
  | .error e => archive path (.engine e)
  | .panicked t => archive path (.panicked t)

end StoreError

end NixStore
