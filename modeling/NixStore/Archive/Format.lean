import NixStore.Archive.Token
import NixStore.FileTree.Basic

/-!
# The archive format

What an archive holds of a tree: for each file its contents and whether its owner may execute it,
for each link its target, and for each directory its entries in the increasing order of their
names. The pieces of the format are given one by one, for a writer that meets them one by one, and
then put together for a whole tree.
-/

namespace NixStore

namespace Archive

def magic : Bytes := word "nix-archive-1"

def close : Bytes := word ")"

/-- The start of a directory's entry, up to its node. -/
def openEntry (name : Bytes) : Bytes :=
  word "entry" ++ word "(" ++ word "name" ++ token name ++ word "node"

def openDirectory : Bytes := word "(" ++ word "type" ++ word "directory"

def linkNode (target : Bytes) : Bytes :=
  word "(" ++ word "type" ++ word "symlink" ++ word "target" ++ token target ++ close

/-- The start of a file of `size` bytes, up to its contents. -/
def openFile (executable : Bool) (size : Nat) : Bytes :=
  word "(" ++ word "type" ++ word "regular" ++
    (if executable then word "executable" ++ token [] else []) ++
    word "contents" ++ lengthField size

/-- What follows the contents of a file of `size` bytes. -/
def closeFile (size : Nat) : Bytes := padding size ++ close

end Archive

/-- What an archive holds of an entry. -/
inductive ArchiveNode where
  | file (executable : Bool) (data : Bytes)
  | directory (entries : List (Bytes × ArchiveNode))
  | link (target : Bytes)

namespace ArchiveNode

open Archive

mutual

def encode : ArchiveNode → Bytes
  | file executable data => openFile executable data.length ++ data ++ closeFile data.length
  | directory entries => openDirectory ++ encodeEntries entries ++ close
  | link target => linkNode target

/-- The entries of a directory in their order. -/
def encodeEntries : List (Bytes × ArchiveNode) → Bytes
  | [] => []
  | (name, node) :: rest => openEntry name ++ encode node ++ close ++ encodeEntries rest

end

def archive (node : ArchiveNode) : Bytes := magic ++ node.encode

end ArchiveNode

namespace Archive

/-- Puts the entries of a directory into the order of their names. -/
def sortEntries {α : Type} (entries : List (Bytes × α)) : List (Bytes × α) :=
  entries.mergeSort fun a b ↦ decide (a.1 ≤ b.1)

theorem sortEntries_map {α β : Type} (f : Bytes × α → β) (entries : List (Bytes × α)) :
    sortEntries (entries.map fun e ↦ (e.1, f e))
      = (sortEntries entries).map fun e ↦ (e.1, f e) := by
  symm
  exact List.map_mergeSort fun _ _ _ _ ↦ rfl

theorem pairwise_sortEntries {α : Type} {entries : List (Bytes × α)}
    (h : (entries.map (·.1)).Nodup) : ((sortEntries entries).map (·.1)).Pairwise (· < ·) := by
  have hle : ((sortEntries entries).map (·.1)).Pairwise (· ≤ ·) := by
    rw [List.pairwise_map]
    refine (List.pairwise_mergeSort ?_ ?_ entries).imp fun h ↦ of_decide_eq_true h
    · intro a b c hab hbc
      exact decide_eq_true (List.le_trans (of_decide_eq_true hab) (of_decide_eq_true hbc))
    · intro a b
      simpa using List.le_total a.1 b.1
  have hnodup : ((sortEntries entries).map (·.1)).Nodup :=
    ((List.mergeSort_perm entries _).map _).nodup_iff.2 h
  refine (hle.and hnodup).imp ?_
  rintro a b ⟨hle, hne⟩
  exact Std.lt_of_le_of_ne hle hne

theorem mem_sortEntries {α : Type} {entries : List (Bytes × α)} {e : Bytes × α} :
    e ∈ sortEntries entries ↔ e ∈ entries :=
  List.mem_mergeSort

end Archive

namespace FileNode

mutual

/-- What an archive holds of an entry: its canonical form. Special files have none. -/
def canonical? : FileNode → Option ArchiveNode
  | file data mode => some (.file (FileStatus.executable ⟨mode, data.length⟩) data)
  | directory entries =>
    (canonicalEntries? entries).map fun es ↦ .directory (Archive.sortEntries es)
  | link target => some (.link target)
  | fifo | socket => none

/-- The canonical forms of the entries of a directory, in their own order. -/
def canonicalEntries? : List (Bytes × FileNode) → Option (List (Bytes × ArchiveNode))
  | [] => some []
  | (name, node) :: rest => do return (name, ← canonical? node) :: (← canonicalEntries? rest)

end

end FileNode

end NixStore
