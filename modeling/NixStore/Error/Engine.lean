import NixStore.Error.Config
import NixStore.Error.Database

/-!
# Errors of engines

What an engine reports when it cannot answer. An error of reading or writing has two parts: what
was being done, and what went wrong.
-/

namespace NixStore

/-- What was being read or written when an error occurred. -/
inductive IoContext where
  | writingArchive
  | sendingChunk
  | archiving (path : Bytes)
  | reading (path : Bytes)
  | readingLink (path : Bytes)
  | inspecting (path : Bytes)
  | opening (path : Bytes)
  /-- An activity of an engine of another kind. -/
  | other (activity : Text)
deriving DecidableEq, Repr

def IoContext.message : IoContext → String
  | writingArchive => "writing archive"
  | sendingChunk => "sending archive chunk"
  | archiving path => s!"archiving {Text.display path}"
  | reading path => s!"reading {Text.display path}"
  | readingLink path => s!"reading link {Text.display path}"
  | inspecting path => s!"stat {Text.display path}"
  | opening path => s!"opening {Text.display path}"
  | other activity => String.ofList activity

/-- What went wrong with reading or writing. -/
inductive IoError where
  | os (e : OsError)
  /-- A system call on an entry of a tree that is being walked. -/
  | walking (path : Bytes) (e : OsError)
  /-- A file turned out shorter than it was when its size was read. -/
  | shrank (size copied : Nat)
  /-- A sink took nothing of what it was given. -/
  | incomplete
  /-- A sink that must take something took nothing. -/
  | zeroWrite
  /-- Nobody reads the archive any more. -/
  | consumerGone
  /-- A reason given by the other side. -/
  | other (reason : Text)
deriving DecidableEq, Repr

def IoError.message : IoError → String
  | os e => e.message
  | walking path e => s!"IO error for operation on {Text.display path}: {e.message}"
  | shrank size copied => s!"file shrank from {size} to {copied} bytes while reading"
  | incomplete => "failed to write whole buffer"
  | zeroWrite => "write zero"
  | consumerGone => "archive consumer went away"
  | other reason => String.ofList reason

/-- What a store cannot deal with. -/
inductive Unsupported where
  /-- An entry of a tree that is neither a file, a directory nor a link. -/
  | fileType (path : Bytes)
  /-- A database without the tables of a store. -/
  | notStoreDatabase (path : Bytes)
  /-- Something else, in the words of an engine of another kind. -/
  | other (reason : Text)
deriving DecidableEq, Repr

def Unsupported.message : Unsupported → String
  | fileType path => s!"file '{Text.display path}' has an unsupported type"
  | notStoreDatabase path => s!"{Text.display path} is not a Nix store database"
  | other reason => String.ofList reason

/-- An error of an engine. Paths of the store are full paths. -/
inductive EngineError where
  | invalidPath (path : Text)
  /-- A path that was reached through the graph of paths has no record of its own. -/
  | danglingReference (path : Text)
  | database (cause : DatabaseError)
  | databaseNotFound (path : Bytes)
  | databaseOpen (path : Bytes) (cause : DatabaseError)
  | io (context : IoContext) (cause : IoError)
  /-- The store's metadata holds something that is not a path of the store. -/
  | corrupt (cause : StorePathError)
  | unsupported (what : Unsupported)
  | config (cause : ConfigError)
deriving DecidableEq, Repr

def EngineError.message : EngineError → String
  | invalidPath path => s!"path '{String.ofList path}' is not valid"
  | danglingReference path => s!"path '{String.ofList path}' is referenced but not valid"
  | database cause => s!"SQLite error: {cause.message}"
  | databaseNotFound path => s!"Database not found at: {Text.display path}"
  | databaseOpen path cause =>
    s!"Failed to open database at '{Text.display path}': {cause.message}"
  | io context cause => s!"{context.message}: {cause.message}"
  | corrupt cause => s!"corrupt store metadata: {cause.message}"
  | unsupported what => what.message
  | config cause => cause.message

/-- How a call of an engine fails: with an error, or by breaking off, perhaps with a message. -/
inductive Fault where
  | error (e : EngineError)
  | panicked (message : Option Text)
deriving DecidableEq, Repr

end NixStore
