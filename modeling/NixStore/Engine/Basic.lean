import NixStore.PathInfo.Basic
import NixStore.StorePath.Directory
import NixStore.Stream.Producer

/-!
# Engines

An engine answers single questions about a store, each of which may fail. What answering involves
is left open as a monad: a database that others write to, or a list of the calls that were made.
-/

namespace NixStore

/-- The primitive questions about a store. -/
structure Engine (m : Type → Type) where
  storeDir : StoreDir
  /-- The record of a path, if it is valid. -/
  pathInfo : StorePath → ExceptT Fault m (Option PathInfo)
  isValid : StorePath → ExceptT Fault m Bool
  /-- The valid paths that refer to a path. -/
  referrers : StorePath → ExceptT Fault m (List StorePath)
  /-- The outputs recorded for a derivation; they need not be valid. -/
  outputs : StorePath → ExceptT Fault m (List StorePath)
  /-- The valid derivations that have a path as one of their outputs. -/
  derivers : StorePath → ExceptT Fault m (List StorePath)
  ofHashPart : HashPart → ExceptT Fault m (Option StorePath)
  /-- The producer of a path's archive. -/
  archive : StorePath → m (Producer (Except Fault Unit))

end NixStore
