import NixStore.FileTree.Lookup

/-!
# Locations of databases

A database is in a file or in memory. The path of its file is made absolute by its names alone: a
dot is left out, and two dots take back the name before them, whether or not there is a directory
of that name. Only a link is looked at, and is replaced by its target. The result has to be short
enough to be kept, and to have the name of a second file put behind it.
-/

namespace NixStore

/-- Where a database is. -/
inductive DatabaseLocation where
  | memory
  /-- The names that lead from the root of a file system to the file. -/
  | file (place : List Bytes)
deriving DecidableEq, Repr

namespace DatabaseLocation

/-- The greatest length of an absolute path while it is made. -/
def maxLength : Nat := 511

/-- What is put behind the path of a file to name its journal, counted in bytes. -/
def journalSuffix : Nat := 8

/-- The greatest number of links on the way to a file. -/
def maxLinks : Nat := 201

/-- The length of the absolute path of a place, given in either order. -/
def pathLength (place : List Bytes) : Nat :=
  place.foldr (fun name length ↦ name.length + 1 + length) 0

/-- Follows names from a place, which is kept in reverse. Names that lead nowhere are kept. -/
def follow (root : FileNode) (links : Nat) (place : List Bytes) : List Bytes → Option (List Bytes)
  | [] => some place.reverse
  | name :: rest =>
    if name = [] ∨ name = [0x2E] then follow root links place rest
    else if name = [0x2E, 0x2E] then follow root links place.tail rest
    else if maxLength < pathLength (name :: place) then none
    else
      match NixStore.follow root false NixStore.maxLinks [] (name :: place).reverse with
      | .ok ((_, .link target) :: _) =>
        match links with
        | 0 => none
        | links + 1 =>
          let start := if FilePath.isAbsolute target then [] else place
          follow root links start (FilePath.names target ++ rest)
      | .ok _ | .error .notFound => follow root links (name :: place) rest
      | .error _ => none
termination_by names => (links, names.length)

/-- The place of the file with a path, if the path can be made absolute. -/
def placeOf? (root : FileNode) (path : Bytes) : Option (List Bytes) := do
  let place ← follow root maxLinks [] (FilePath.names path)
  -- the root itself is no file
  if place = [] ∨ maxLength + 1 < pathLength place + journalSuffix then none else return place

/-- Whether there can be a journal beside a database, which changes to a file need. -/
def mayHaveJournal : DatabaseLocation → Bool
  | memory => true
  | file place =>
    place.getLast?.all fun name ↦ name.length + journalSuffix ≤ FilePath.maxNameLength

end DatabaseLocation

end NixStore
