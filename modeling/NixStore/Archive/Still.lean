import NixStore.Archive.Dump
import NixStore.FileTree.Lookup
import NixStore.Stream.Producer

/-!
# Archives of trees that stand still

As long as nothing changes, looking at a tree has no effect, and writing its archive is a producer.
-/

namespace NixStore

namespace FileNode

/-- What an open file has left, or what reading it comes to. -/
abbrev OpenFile := Except OsError Bytes

/-- Reads up to `n` bytes of an open file. -/
def readOpen (file : OpenFile) (n : Nat) : Except OsError Bytes × OpenFile :=
  match file with
  | .error e => (.error e, .error e)
  | .ok data => (.ok (data.take n), .ok (data.drop n))

def host (disk : FileNode) : ArchiveHost Producer OpenFile where
  inspect path := pure (disk.inspect path)
  list path := pure (disk.listNames path)
  readLink path := pure (disk.linkTarget path)
  openFile path := pure ((disk.openPath path).map (·.2))
  read file n := pure (readOpen file n)
  write := Producer.writeAll

/-- The producer of the archive of the entry at a path. -/
def archiveProducer (disk : FileNode) (path : Bytes) : Producer (Except Fault Unit) := do
  return (← (disk.host.dump path).run).mapError .error

end FileNode

end NixStore
