import NixStore.FileTree.Lookup

/-!
# Changes to file trees

An entry is put in place of what was there, taken away, cut or filled up to a length, or made
longer. Files that are changed in length are reached through links; what is put or taken away is
the entry itself. A change that cannot be made leaves the tree as it is.
-/

namespace NixStore

/-- A change to the entry at a path. -/
inductive FileChange where
  | put (path : Bytes) (node : FileNode)
  | remove (path : Bytes)
  | truncate (path : Bytes) (length : Nat)
  | append (path : Bytes) (data : Bytes)

namespace FileNode

/-- Cuts data, or fills it up with zeros, to a length. -/
def resize (data : Bytes) (n : Nat) : Bytes :=
  data.take n ++ List.replicate (n - data.length) 0

def alterData (f : Bytes → Bytes) : Option FileNode → Option FileNode
  | some (file data mode) => some (file (f data) mode)
  | node => node

end FileNode

namespace FileChange

/-- Where a change is made, and how it changes what is there. -/
def resolve (root : FileNode) :
    FileChange → Except OsError (List Bytes × (Option FileNode → Option FileNode))
  | put path node => do return (← root.placeOf path, fun _ ↦ some node)
  | remove path => do return (← root.placeOf path, fun _ ↦ none)
  | truncate path n => do
    return (← root.placeOfFile path, FileNode.alterData (FileNode.resize · n))
  | append path data => do
    return (← root.placeOfFile path, FileNode.alterData (· ++ data))

/-- Whether a change replaces an entry and does not change the data of one. -/
def replaces : FileChange → Bool
  | put .. | remove _ => true
  | _ => false

def apply (c : FileChange) (root : FileNode) : FileNode :=
  match c.resolve root with
  | .error _ => root
  | .ok (place, f) => (FileNode.alterAt f place (some root)).getD root

end FileChange

end NixStore
