import NixStore.Archive.Marks

/-!
# Archives with their marks

What is marked of a node is what is encoded of it, and marks of one piece are those of its parts put
together. So all that is said of the bytes of an archive can be said of the marked bytes first.
-/

namespace NixStore

namespace Archive

theorem map_fst_framed (bytes : Bytes) : (framed bytes).map (·.1) = bytes := by
  rw [framed, List.map_map]
  exact List.map_id bytes

theorem map_fst_piece (path : Option Bytes) (piece : Bytes) :
    (piece.map (·, path)).map (·.1) = piece := by
  rw [List.map_map]
  exact List.map_id piece

theorem framed_append (bytes more : Bytes) : framed (bytes ++ more) = framed bytes ++ framed more :=
  List.map_append

theorem framed_ne_nil {bytes : Bytes} (h : bytes ≠ []) : framed bytes ≠ [] := by
  rwa [framed, Ne, List.map_eq_nil_iff]

theorem contents_append (out more : Marks) :
    contents (out ++ more) = contents out ++ contents more :=
  List.filter_append ..

theorem contents_framed (bytes : Bytes) : contents (framed bytes) = [] := by
  rw [contents, framed, List.filter_eq_nil_iff]
  exact List.forall_mem_map.2 fun _ _ ↦ nofun

theorem contents_piece (path piece : Bytes) :
    contents (piece.map (·, some path)) = piece.map (·, some path) :=
  List.filter_eq_self.2 (List.forall_mem_map.2 fun _ _ ↦ rfl)

end Archive

namespace ArchiveNode

open Archive

mutual

theorem map_fst_marked (path : Bytes) :
    ∀ node : ArchiveNode, (node.marked path).map (·.1) = node.encode
  | .file executable data => by
    simp only [marked, encode, List.map_append, map_fst_framed, map_fst_piece, List.append_assoc]
  | .directory entries => by
    simp only [marked, encode, List.map_append, map_fst_framed, map_fst_markedEntries path entries,
      List.append_assoc]
  | .link target => by simp only [marked, encode, map_fst_framed]

theorem map_fst_markedEntries (path : Bytes) : ∀ entries : List (Bytes × ArchiveNode),
    (markedEntries path entries).map (·.1) = encodeEntries entries
  | [] => rfl
  | (name, node) :: rest => by
    simp only [markedEntries, encodeEntries, List.map_append, map_fst_framed,
      map_fst_marked (FilePath.join path name) node, map_fst_markedEntries path rest,
      List.append_assoc]

end

/-- Without the marks, what is marked is the archive. -/
theorem map_fst_markedArchive (path : Bytes) (node : ArchiveNode) :
    (node.markedArchive path).map (·.1) = node.archive := by
  rw [markedArchive, List.map_append, map_fst_framed, map_fst_marked, archive]

theorem markedEntries_append (path : Bytes) (entries more : List (Bytes × ArchiveNode)) :
    markedEntries path (entries ++ more)
      = markedEntries path entries ++ markedEntries path more := by
  induction entries with
  | nil => rfl
  | cons e entries ih =>
    obtain ⟨name, node⟩ := e
    simp only [List.cons_append, markedEntries, ih, List.append_assoc]

end ArchiveNode

end NixStore
