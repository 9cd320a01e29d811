import NixStore.FileTree.Change

/-!
# Entries that may go away

An entry is followed through the changes that are made to its tree, by its place, until a change
puts something else there or takes it away. From then on it is as it was last seen: what comes to
stand at the place later is another entry.
-/

namespace NixStore

/-- Whether a change replaces the entry at a place or one that it is in, or takes it away. -/
def FileChange.displaces (place : List Bytes) (disk : FileNode) (c : FileChange) : Bool :=
  c.replaces &&
    match c.resolve disk with
    | .error _ => false
    | .ok (changed, _) => changed.isPrefixOf place

/-- A tree as it was when it last had the entry at a place, and whether it still has it. -/
structure Sighting where
  disk : FileNode
  present : Bool

namespace Sighting

def after (place : List Bytes) (sighting : Sighting) (c : FileChange) : Sighting :=
  if sighting.present then
    if c.displaces place sighting.disk then { sighting with present := false }
    else { sighting with disk := c.apply sighting.disk }
  else sighting

end Sighting

/-- How the entry at a place was last seen when some changes were made to a tree. -/
def FileNode.lastSight (place : List Bytes) (disk : FileNode) (changes : List FileChange) :
    Sighting :=
  changes.foldl (Sighting.after place) ⟨disk, true⟩

end NixStore
