import NixStore.Archive.Format
import NixStore.FileTree.Path

/-!
# Contents and frame

Which bytes of an archive are contents of files. All others, the words of the format, the names, the
targets of links and the padding, are its frame.
-/

namespace NixStore

/-- Bytes of an archive, those of contents marked with the path of their file. -/
abbrev Marks := List (UInt8 × Option Bytes)

namespace Archive

/-- Bytes of the frame. -/
def framed (bytes : Bytes) : Marks := bytes.map (·, none)

/-- The bytes that are contents of files. -/
def contents (marked : Marks) : Marks := marked.filter (·.2.isSome)

end Archive

namespace ArchiveNode

open Archive

mutual

/-- The bytes of the node of the entry at a path. A byte of a file's contents is marked with the
path of the file. -/
def marked (path : Bytes) : ArchiveNode → Marks
  | file executable data =>
    framed (openFile executable data.length) ++
      (data.map (·, some path) ++ framed (closeFile data.length))
  | directory entries => framed openDirectory ++ (markedEntries path entries ++ framed close)
  | link target => framed (linkNode target)

/-- The same for the entries of the directory at a path. -/
def markedEntries (path : Bytes) : List (Bytes × ArchiveNode) → Marks
  | [] => []
  | (name, node) :: rest =>
    framed (openEntry name) ++
      (marked (FilePath.join path name) node ++ (framed close ++ markedEntries path rest))

end

/-- The bytes of a whole archive of the entry at a path. -/
def markedArchive (path : Bytes) (node : ArchiveNode) : Marks :=
  framed magic ++ node.marked path

end ArchiveNode

end NixStore
