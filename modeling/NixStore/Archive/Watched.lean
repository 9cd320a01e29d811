import NixStore.Archive.Live
import NixStore.Archive.Marks
import NixStore.FileTree.Sighting

/-!
# Trees that are watched while they are archived

A tree that others change before any call that is made to it, and a record of what is read of its
files: for each piece, the path that was opened, the tree as it was then, and what was changed
between that and the reading. Where a piece comes from is told by this record alone, whatever the
host does to keep a file open.
-/

namespace NixStore

/-! ## What is read -/

/-- A file that was opened. -/
structure Opening where
  path : Bytes
  /-- The tree as it was then. -/
  disk : FileNode
  /-- What others changed since. -/
  since : List FileChange

/-- Some bytes of a file, with its opening as it was when they were read. -/
structure Reading where
  opening : Opening
  piece : Bytes

namespace Reading

/-- The bytes, marked with the path that was opened. -/
def marked (r : Reading) : Marks := r.piece.map (·, some r.opening.path)

/-- A piece was read of the regular file at the end of a trail, to which its path led when it was
opened, links followed: it is of the data that this file has or, if its entry is gone, had last. -/
structure ComesFrom (r : Reading) (trail : Trail) : Prop where
  lookUp_eq : r.opening.disk.lookUp true r.opening.path = .ok trail
  regular : ∃ data mode, r.opening.disk.at? trail.place = some (.file data mode)
  isPart : ∃ data mode, (r.opening.disk.lastSight trail.place r.opening.since).disk.at? trail.place
    = some (.file data mode) ∧ r.piece <:+: data

end Reading

/-! ## The host -/

/-- A tree with the changes that are made before each of the next calls, and what was read. -/
structure WatchedTree where
  tree : LiveTree
  coming : List (List FileChange)
  /-- The file that was opened last. -/
  opening : Option Opening
  /-- What was read, the last piece first. -/
  readings : List Reading

namespace WatchedTree

/-- A tree before anything is written. -/
def start (disk : FileNode) (coming : List (List FileChange)) : WatchedTree :=
  ⟨.start disk [], coming, none, []⟩

/-- All bytes that were read, each marked with the path that was opened. -/
def read (w : WatchedTree) : Marks :=
  w.readings.reverse.flatMap Reading.marked

def change (w : WatchedTree) (c : FileChange) : WatchedTree :=
  { w with
    tree := w.tree.change c
    opening := w.opening.map fun o ↦ { o with since := o.since ++ [c] } }

/-- Makes the changes that come before the next call. -/
def advance (w : WatchedTree) : WatchedTree :=
  match w.coming with
  | [] => w
  | batch :: coming => batch.foldl change { w with coming := coming }

/-- A call to the tree, behind the changes that come before it. -/
def call {α : Type} (x : StateM LiveTree α) : StateM WatchedTree α := fun w ↦
  let (a, tree) := x.run w.advance.tree
  (a, { w.advance with tree := tree })

/-- Remembers a file that was opened just now. -/
def opened (path : Bytes) (w : WatchedTree) : WatchedTree :=
  { w with opening := some ⟨path, w.tree.disk, []⟩ }

def record (piece : Bytes) (w : WatchedTree) : WatchedTree :=
  match w.opening with
  | none => w
  | some o => { w with readings := ⟨o, piece⟩ :: w.readings }

/-- A tree that others change before any call. -/
def host (limits : SinkLimits) : ArchiveHost (StateM WatchedTree) Unit where
  inspect path := call ((LiveTree.host limits).inspect path)
  list path := call ((LiveTree.host limits).list path)
  readLink path := call ((LiveTree.host limits).readLink path)
  openFile path := do
    match ← call ((LiveTree.host limits).openFile path) with
    | .error e => return .error e
    | .ok file =>
      modify (opened path)
      return .ok file
  read file n := do
    match ← call ((LiveTree.host limits).read file n) with
    | (.ok (b :: piece), file) =>
      modify (record (b :: piece))
      return (.ok (b :: piece), file)
    | r => return r
  write data := call ((LiveTree.host limits).write data)

/-- Writes the archive of the entry at a path. -/
def dump (w : WatchedTree) (limits : SinkLimits) (path : Bytes) :
    Except EngineError Unit × WatchedTree :=
  ((host limits).dump path).run.run w

end WatchedTree

end NixStore
