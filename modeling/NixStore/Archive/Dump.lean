import NixStore.Archive.Format
import NixStore.Error.Engine

/-!
# Writing archives

An archive is written from a tree by looking at each entry when its turn comes, so it is written
while the tree may change. What looking and writing mean is left open as a host: a tree that
stands still, or one that others change between two looks.

The walk comes to each entry once, a directory before all that is in it, and tells only how deep
the entry is. So a directory stays open until the walk comes to an entry that is not deeper, or
ends; which ones are open is kept as a list of depths. A directory is read in full when the walk
comes to it, before those in front of it are closed, and a failure to read it shows after its own
brackets are opened. A link is read, and a file is inspected, after the name of its entry was
written; a file is opened after its length was written, and gives no more bytes than that. Each
directory's path is longer than that of the directory it is in, and a path has a greatest length,
so the walk ends whatever the host does.
-/

namespace NixStore

/-- The world of a writer of archives. An open file is a value of type `η`. -/
structure ArchiveHost (m : Type → Type) (η : Type) where
  /-- The kind and status of an entry, links not followed. -/
  inspect : Bytes → m (Except OsError (FileKind × FileStatus))
  /-- The names in a directory with the kinds of their entries. -/
  list : Bytes → m (Except OsError (List (Bytes × FileKind)))
  readLink : Bytes → m (Except OsError Bytes)
  /-- Opens a file; links are followed. -/
  openFile : Bytes → m (Except OsError η)
  /-- Reads at most so many bytes; none are read only at the end. -/
  read : η → Nat → m (Except OsError Bytes × η)
  /-- Writes all of some bytes. -/
  write : Bytes → m (Except IoError Unit)

namespace ArchiveHost

variable {m : Type → Type} [Monad m] {η : Type}

/-- The most that is read from a file at once. -/
def pieceSize : Nat := 8192

/-- Fails with an error of reading or writing. -/
def fail {α : Type} (context : IoContext) (e : IoError) : ExceptT EngineError m α :=
  throw (.io context e)

def put (h : ArchiveHost m η) (context : IoContext) (bs : Bytes) : ExceptT EngineError m Unit := do
  match ← h.write bs with
  | .ok () => pure ()
  | .error e => fail context e

/-- Copies up to `remaining` bytes of an open file, in pieces; gives the number of bytes that the
file did not have. -/
def copy (h : ArchiveHost m η) (path : Bytes) (file : η) (remaining : Nat) :
    ExceptT EngineError m Nat := do
  if remaining = 0 then return 0
  else
    match ← h.read file (min remaining pieceSize) with
    | (.error e, _) => fail (.archiving path) (.os e)
    -- the file has become shorter
    | (.ok [], _) => return remaining
    | (.ok (b :: piece), file) =>
      h.put (.archiving path) (b :: piece)
      h.copy path file (remaining - (piece.length + 1))
termination_by remaining
decreasing_by omega

def dumpFile (h : ArchiveHost m η) (path : Bytes) (status : FileStatus) :
    ExceptT EngineError m Unit := do
  h.put .writingArchive (Archive.openFile status.executable status.size)
  match ← h.openFile path with
  | .error e => fail (.opening path) (.os e)
  | .ok file =>
    let missing ← h.copy path file status.size
    if missing = 0 then h.put .writingArchive (Archive.closeFile status.size)
    else fail (.archiving path) (.shrank status.size (status.size - missing))

/-- Writes an entry that is not a directory. -/
def dumpLeaf (h : ArchiveHost m η) (path : Bytes) (kind : FileKind) :
    ExceptT EngineError m Unit := do
  match kind with
  | .link =>
    match ← h.readLink path with
    | .error e => fail (.readingLink path) (.os e)
    | .ok target => h.put .writingArchive (Archive.linkNode target)
  | .file =>
    match ← h.inspect path with
    | .error e => fail (.inspecting path) (.walking path e)
    | .ok (_, status) => h.dumpFile path status
  | _ => throw (.unsupported (.fileType path))

/-! ## The walk -/

/-- Writes what stands around the node of an entry; the root is not one. -/
def putAround (h : ArchiveHost m η) (depth : Nat) (bs : Bytes) : ExceptT EngineError m Unit :=
  if 0 < depth then h.put .writingArchive bs else pure ()

/-- Closes the open directories that an entry at a depth is not in; gives those that it is in.
They are kept by their depths, the deepest first. -/
def closeDownTo (h : ArchiveHost m η) (depth : Nat) : List Nat → ExceptT EngineError m (List Nat)
  | [] => return []
  | d :: rest => do
    if depth ≤ d then
      h.put .writingArchive Archive.close
      h.putAround d Archive.close
      h.closeDownTo depth rest
    else return d :: rest

/-- Writes an entry when the walk comes to it: all of it, or the start of a directory, which stays
open. Gives the directories that are open then. -/
def visit (h : ArchiveHost m η) (depth : Nat) (path name : Bytes) (kind : FileKind)
    (openDirs : List Nat) : ExceptT EngineError m (List Nat) := do
  let openDirs ← h.closeDownTo depth openDirs
  h.putAround depth (Archive.openEntry name)
  if kind = .directory then
    h.put .writingArchive Archive.openDirectory
    return depth :: openDirs
  else
    h.dumpLeaf path kind
    h.putAround depth Archive.close
    return openDirs

/-- Walks over the entries of the directory at `path` and all that is below them. Gives the
directories that are open then. -/
def walk (h : ArchiveHost m η) (depth : Nat) (path : Bytes) (openDirs : List Nat) :
    List (Bytes × FileKind) → ExceptT EngineError m (List Nat)
  | [] => return openDirs
  | (name, kind) :: rest => do
    let here := FilePath.join path name
    if kind = .directory then
      if longer : path.length < here.length ∧ here.length ≤ FilePath.maxLength then
        -- read first, visited then: a failure to read it shows behind its brackets
        let listing ← h.list here
        let openDirs ← h.visit depth here name .directory openDirs
        match listing with
        | .error e => fail (.reading here) (.walking here e)
        | .ok entries =>
          have : FilePath.maxLength - here.length < FilePath.maxLength - path.length := by
            omega
          let openDirs ← h.walk (depth + 1) here openDirs (Archive.sortEntries entries)
          h.walk depth path openDirs rest
      else
        -- no system call takes a path as long as this
        let _ ← h.visit depth here name .directory openDirs
        fail (.reading here) (.walking here .nameTooLong)
    else
      let openDirs ← h.visit depth here name kind openDirs
      h.walk depth path openDirs rest
termination_by entries => (FilePath.maxLength - path.length, entries.length)
decreasing_by
  · exact Prod.Lex.left _ _ this
  · exact Prod.Lex.right _ (Nat.lt_succ_self _)
  · exact Prod.Lex.right _ (Nat.lt_succ_self _)

/-- Writes the archive of the entry at a path. -/
def dump (h : ArchiveHost m η) (root : Bytes) : ExceptT EngineError m Unit := do
  h.put .writingArchive Archive.magic
  match ← h.inspect root with
  | .error e => fail (.reading root) (.walking root e)
  | .ok (.directory, _) =>
    let listing ← h.list root
    let openDirs ← h.visit 0 root [] .directory []
    match listing with
    | .error e => fail (.reading root) (.walking root e)
    | .ok entries =>
      let openDirs ← h.walk 1 root openDirs (Archive.sortEntries entries)
      let _ ← h.closeDownTo 0 openDirs
  | .ok (kind, _) =>
    let _ ← h.visit 0 root [] kind []

end ArchiveHost

end NixStore
