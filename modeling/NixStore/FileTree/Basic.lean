import NixStore.FileTree.Path

/-!
# File trees

A tree of files, directories, links and special files. The names in a directory are kept in no
particular order; whoever needs one sorts them.
-/

namespace NixStore

/-- An entry of a file system with all that is below it. -/
inductive FileNode where
  | file (data : Bytes) (mode : Nat)
  | directory (entries : List (Bytes × FileNode))
  | link (target : Bytes)
  | fifo
  | socket

/-- Induction over a tree: a directory has the property if all its entries have it. -/
theorem FileNode.induction {motive : FileNode → Prop}
    (file : ∀ data mode, motive (.file data mode))
    (directory : ∀ entries, (∀ e ∈ entries, motive e.2) → motive (.directory entries))
    (link : ∀ target, motive (.link target)) (fifo : motive .fifo) (socket : motive .socket)
    (node : FileNode) : motive node :=
  FileNode.rec (motive_2 := fun entries ↦ ∀ e ∈ entries, motive e.2)
    (motive_3 := fun e ↦ motive e.2) file directory link fifo socket
    (fun _ h ↦ absurd h List.not_mem_nil)
    (fun _ _ hhead htail ↦ List.forall_mem_cons.2 ⟨hhead, htail⟩)
    (fun _ _ h ↦ h) node

/-- The kinds of entries that a directory tells apart. -/
inductive FileKind where
  | file
  | directory
  | link
  | other
deriving DecidableEq, Repr

/-- What is known about an entry without opening it. -/
structure FileStatus where
  mode : Nat
  size : Nat
deriving DecidableEq, Repr

namespace FileStatus

/-- Whether the owner may execute the entry. -/
def executable (s : FileStatus) : Bool := s.mode.testBit 6

end FileStatus

namespace FileNode

/-- The kind of an entry. -/
def kind : FileNode → FileKind
  | file .. => .file
  | directory _ => .directory
  | link _ => .link
  | fifo | socket => .other

/-- What is known about an entry. Everybody may follow a link, and its size is that of its target;
a directory has the size of one block. Whoever makes a socket may execute it, and a pipe not. -/
def status : FileNode → FileStatus
  | file data mode => ⟨mode, data.length⟩
  | directory _ => ⟨0o755, 4096⟩
  | link target => ⟨0o777, target.length⟩
  | fifo => ⟨0o644, 0⟩
  | socket => ⟨0o755, 0⟩

/-- The entry under a name in a list of entries. -/
def find? (name : Bytes) : List (Bytes × FileNode) → Option FileNode
  | [] => none
  | (n, node) :: rest => if n = name then some node else find? name rest

/-- Replaces the entry under a name, or adds one, or takes it away. -/
def alterEntry (name : Bytes) (f : Option FileNode → Option FileNode) :
    List (Bytes × FileNode) → List (Bytes × FileNode)
  | [] => (f none).toList.map (name, ·)
  | (n, node) :: rest =>
    if n = name then (f (some node)).toList.map (name, ·) ++ rest
    else (n, node) :: alterEntry name f rest

/-- Changes what stands at a place, given by the names that lead to it. A place below something
that is not a directory stays empty. -/
def alterAt (f : Option FileNode → Option FileNode) : List Bytes → Option FileNode → Option FileNode
  | [], node => f node
  | name :: place, some (directory entries) =>
    some (directory (alterEntry name (alterAt f place) entries))
  | _ :: _, node => node

def at? : List Bytes → FileNode → Option FileNode
  | [], node => some node
  | name :: place, directory entries => (find? name entries).bind (at? place)
  | _ :: _, _ => none

end FileNode

end NixStore
