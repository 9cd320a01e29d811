import NixStore.Error.Os
import NixStore.FileTree.Basic

/-!
# Looking up paths

A path leads from the root of a file system through directories to an entry. A link on the way is
followed, and one at the end is followed if that is asked for; the number of links is bounded, so
that a circle of links is an error. The search keeps the directories from the root to where it
stands, because two dots lead back to the last of them.
-/

namespace NixStore

/-- A place in a file system: the name of each entry from the root, and the entry. -/
abbrev Trail := List (Bytes × FileNode)

/-- The names that lead to the end of a trail, which is kept in reverse. -/
def Trail.place (t : Trail) : List Bytes := (t.map (·.1)).reverse

/-- The greatest number of links on the way to an entry. -/
def maxLinks : Nat := 40

/-- Follows names from the end of a trail. An empty name or a dot stays where it is, and takes
what it stands on to be a directory. -/
def follow (root : FileNode) (followLast : Bool) (links : Nat) (trail : Trail) :
    List Bytes → Except OsError Trail
  | [] => .ok trail
  | name :: rest =>
    match (trail.head?.map (·.2)).getD root with
    | .directory entries =>
      if name = [] ∨ name = [0x2E] then follow root followLast links trail rest
      else if name = [0x2E, 0x2E] then follow root followLast links trail.tail rest
      else if FilePath.maxNameLength < name.length then .error .nameTooLong
      else
        match FileNode.find? name entries with
        | none => .error .notFound
        | some (.link target) =>
          if rest ≠ [] ∨ followLast then
            match links with
            | 0 => .error .tooManyLinks
            | links + 1 =>
              -- a relative target counts from the directory that holds the link
              let start := if FilePath.isAbsolute target then [] else trail
              follow root followLast links start (FilePath.names target ++ rest)
          else .ok ((name, .link target) :: trail)
        | some node => follow root followLast links ((name, node) :: trail) rest
    | _ => .error .notDirectory
termination_by names => (links, names.length)

namespace FileNode

/-- Where a path leads, from the root of a file system. Relative paths start at the root. -/
def lookUp (root : FileNode) (followLast : Bool) (path : Bytes) : Except OsError Trail :=
  if 0 ∈ path then .error .zeroByteInPath
  else if path = [] then .error .notFound
  else if FilePath.maxLength < path.length then .error .nameTooLong
  else follow root followLast maxLinks [] (FilePath.names path)

/-- Where the entry at a path is or would be, links at its end not followed. -/
def placeOf (root : FileNode) (path : Bytes) : Except OsError (List Bytes) := do
  let names := FilePath.names path
  let trail ← follow root true maxLinks [] names.dropLast
  return trail.place ++ (names.getLast?).toList

/-- Where the file at a path is, links followed. -/
def placeOfFile (root : FileNode) (path : Bytes) : Except OsError (List Bytes) := do
  return (← root.lookUp true path).place

def entry (root : FileNode) (followLast : Bool) (path : Bytes) : Except OsError FileNode := do
  let trail ← root.lookUp followLast path
  return (trail.head?.map (·.2)).getD root

/-- The status of an entry; a link is not followed. -/
def inspect (root : FileNode) (path : Bytes) : Except OsError (FileKind × FileStatus) := do
  let node ← root.entry false path
  return (node.kind, node.status)

/-- The names in a directory, each with the kind of its entry. -/
def listNames (root : FileNode) (path : Bytes) : Except OsError (List (Bytes × FileKind)) := do
  match ← root.entry true path with
  | .directory entries => return entries.map fun (name, node) ↦ (name, node.kind)
  | _ => throw .notDirectory

def linkTarget (root : FileNode) (path : Bytes) : Except OsError Bytes := do
  match ← root.entry false path with
  | .link target => return target
  | _ => throw .invalid

/-- The place of an entry that can be opened for reading, and what reading it gives: the data of a
file, nothing for a pipe, and for a directory that it is one. -/
def openPath (root : FileNode) (path : Bytes) :
    Except OsError (List Bytes × Except OsError Bytes) := do
  let trail ← root.lookUp true path
  match (trail.head?.map (·.2)).getD root with
  | .file data _ => return (trail.place, .ok data)
  | .directory _ => return (trail.place, .error .isDirectory)
  | .socket => throw .noDevice
  | .fifo | .link _ => return (trail.place, .ok [])

/-- The contents of a file. -/
def contents (root : FileNode) (path : Bytes) : Except OsError Bytes := do
  (← root.openPath path).2

end FileNode

end NixStore
