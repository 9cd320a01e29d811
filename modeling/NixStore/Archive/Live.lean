import NixStore.Archive.Dump
import NixStore.FileTree.Change
import NixStore.Stream.Producer

/-!
# Archives of trees that change

A tree that others change while its archive is written, and a sink that takes only so much. When a
change is made is told by the number of bytes that the sink has taken by then. A file that is open
keeps its data when its entry is replaced or taken away, and follows changes of its length as long
as the entry is there.
-/

namespace NixStore

/-- How a sink of archives behaves. -/
structure SinkLimits where
  /-- The most that is taken in total. -/
  total : Option Nat
  /-- The most that is taken at once. -/
  atOnce : Option Nat
  /-- Beyond the total the sink takes nothing, and does not fail. -/
  silent : Bool

/-- A file that is being read. -/
structure LiveFile where
  place : List Bytes
  data : Except OsError Bytes
  position : Nat
  /-- Whether the file still is at its place. -/
  attached : Bool

/-- A tree, the changes that are still to come, the open file, and the bytes taken. -/
structure LiveTree where
  disk : FileNode
  /-- Each change with the number of bytes at which it is made. -/
  changes : List (Nat × FileChange)
  opened : Option LiveFile
  /-- The pieces taken, the last one first. -/
  pieces : List Bytes
  taken : Nat

namespace LiveFile

/-- What becomes of an open file when a change is made to a tree that had its entry. -/
def afterChange (file : LiveFile) (c : FileChange) (place : List Bytes) (disk : FileNode) :
    LiveFile :=
  -- what is open stays as it was when its entry went away
  if !file.attached then file
  else if c.replaces then
    if place.isPrefixOf file.place then { file with attached := false } else file
  else
    match disk.at? file.place with
    | some (.file data _) => { file with data := .ok data }
    | _ => file

end LiveFile

namespace LiveTree

/-- A tree before anything is written. -/
def start (disk : FileNode) (changes : List (Nat × FileChange)) : LiveTree :=
  ⟨disk, changes, none, [], 0⟩

def bytes (t : LiveTree) : Bytes := t.pieces.reverse.flatten

def change (t : LiveTree) (c : FileChange) : LiveTree :=
  match c.resolve t.disk with
  | .error _ => t
  | .ok (place, _) =>
    let disk := c.apply t.disk
    { t with disk := disk, opened := t.opened.map fun file ↦ file.afterChange c place disk }

/-- Makes the changes that are due, in order, up to the first that is not. -/
def makeDue (t : LiveTree) : List (Nat × FileChange) → LiveTree
  | [] => { t with changes := [] }
  | (after, c) :: rest =>
    if after ≤ t.taken then (t.change c).makeDue rest else { t with changes := (after, c) :: rest }

/-- Takes a piece, and makes the changes that are due then. -/
def take (t : LiveTree) (piece : Bytes) : LiveTree :=
  let t := { t with pieces := piece :: t.pieces, taken := t.taken + piece.length }
  t.makeDue t.changes

/-- The part of some bytes that a sink takes in one call. -/
def accepted (limits : SinkLimits) (t : LiveTree) (data : Bytes) : Bytes :=
  let data := match limits.atOnce with
    | none => data
    | some n => data.take n
  match limits.total with
  | none => data
  | some n => data.take (n - t.taken)

def sink (limits : SinkLimits) : Sink (StateM LiveTree) where
  write data := do
    let t ← get
    if limits.total.any (· ≤ t.taken) && !limits.silent then
      return .error (.other (text "sink closed"))
    let piece := t.accepted limits data
    -- no change is due because of a call that takes nothing
    if !piece.isEmpty then set (t.take piece)
    return .ok piece.length
  flush := return .ok ()

/-- Reads up to `n` bytes of the open file. -/
def readOpened (n : Nat) : StateM LiveTree (Except OsError Bytes) := do
  let t ← get
  match t.opened with
  | none => return .ok []
  | some file =>
    match file.data with
    | .error e => return .error e
    | .ok data =>
      let piece := (data.drop file.position).take n
      set { t with opened := some { file with position := file.position + piece.length } }
      return .ok piece

/-- A tree that changes while its archive is written. -/
def host (limits : SinkLimits) : ArchiveHost (StateM LiveTree) Unit where
  inspect path := do return (← get).disk.inspect path
  list path := do return (← get).disk.listNames path
  readLink path := do return (← get).disk.linkTarget path
  openFile path := do
    match (← get).disk.openPath path with
    | .error e => return .error e
    | .ok (place, data) =>
      modify fun t ↦ { t with opened := some ⟨place, data, 0, true⟩ }
      return .ok ()
  read _ n := do return (← readOpened n, ())
  write data := (sink limits).deliver .incomplete data

/-- Writes the archive of the entry at a path. -/
def dump (t : LiveTree) (limits : SinkLimits) (path : Bytes) : Except EngineError Unit × LiveTree :=
  ((host limits).dump path).run.run t

end LiveTree

end NixStore
