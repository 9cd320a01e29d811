import NixStore.Proofs.Archive.Decoding
import NixStore.Proofs.Archive.Marks

/-!
# Archives that are not complete

While an archive is written, some directories are open around the entry that comes next: of each of
them some entries are done, and one is being written. Whatever node stands there then, closing these
directories behind it makes an archive. So what has been written is the beginning of an archive as
long as the names in each open directory increase, and it stays one if the writer breaks off
anywhere. It is not a whole archive then, since no archive goes on behind another one. All of this
is said of marked bytes, and holds of the bytes when the marks are left out.
-/

namespace NixStore

namespace Archive

theorem word_ne_nil (s : String) : word s ≠ [] :=
  List.append_ne_nil_of_left_ne_nil (List.append_ne_nil_of_left_ne_nil (List.cons_ne_nil _ _) _) _

theorem close_ne_nil : close ≠ [] := word_ne_nil ")"

end Archive

namespace ArchiveNode

open Archive

variable {entries : List (Bytes × ArchiveNode)} {name : Bytes} {node : ArchiveNode}

theorem wellFormed_empty : (directory []).WellFormed :=
  .directory .nil (fun _ h ↦ absurd h List.not_mem_nil) (fun _ h ↦ absurd h List.not_mem_nil)

/-- A directory with some entries may have one more, with a name behind theirs. -/
structure Admits (entries : List (Bytes × ArchiveNode)) (name : Bytes) : Prop where
  wellFormed : (directory entries).WellFormed
  increasing : ∀ e ∈ entries, e.1 < name
  length_lt : name.length < sizeLimit

theorem Admits.wellFormed_append (h : Admits entries name) (hnode : node.WellFormed) :
    (directory (entries ++ [(name, node)])).WellFormed := by
  obtain ⟨hentries, hincreasing, hlength⟩ := h
  cases hentries with
  | directory hsorted hnames hnodes =>
    refine .directory ?_ ?_ ?_
    · rw [List.map_append, List.pairwise_append]
      refine ⟨hsorted, List.pairwise_singleton _ _, fun a ha b hb ↦ ?_⟩
      obtain ⟨e, he, rfl⟩ := List.mem_map.1 ha
      rw [List.mem_singleton.1 hb]
      exact hincreasing e he
    · rw [List.forall_mem_append]
      exact ⟨hnames, List.forall_mem_singleton.2 hlength⟩
    · rw [List.forall_mem_append]
      exact ⟨hnodes, List.forall_mem_singleton.2 hnode⟩

/-! ## Beginnings -/

/-- Some bytes are the beginning of an archive, and not all of it. -/
def Incomplete (out : Bytes) : Prop :=
  ∃ node : ArchiveNode, node.WellFormed ∧ out <+: node.archive ∧ out ≠ node.archive

/-- What is not complete is no archive, not even of another tree. -/
theorem Incomplete.ne_archive {out : Bytes} (h : Incomplete out) (hnode : node.WellFormed) :
    out ≠ node.archive := by
  rintro rfl
  obtain ⟨node', hnode', ⟨rest, hrest⟩, hne⟩ := h
  have hread := read?_archive hnode rest
  rw [hrest] at hread
  have hread' := read?_archive hnode' []
  rw [List.append_nil, hread] at hread'
  cases hread'
  exact hne rfl

variable {root : Bytes} {out more : Marks}

/-- Some marked bytes are the beginning of the archive of the entry at a path. -/
def Starts (root : Bytes) (out : Marks) : Prop :=
  ∃ node : ArchiveNode, node.WellFormed ∧ out <+: node.markedArchive root

/-- They are, and more of the archive is to come. -/
def Continues (root : Bytes) (out : Marks) : Prop := ∃ more, more ≠ [] ∧ Starts root (out ++ more)

theorem Starts.of_append (h : Starts root (out ++ more)) : Starts root out := by
  obtain ⟨node, hnode, hprefix⟩ := h
  exact ⟨node, hnode, (List.prefix_append out more).trans hprefix⟩

theorem Starts.continues (h : Starts root (out ++ more)) (hmore : more ≠ []) :
    Continues root out :=
  ⟨more, hmore, h⟩

theorem Continues.starts (h : Continues root out) : Starts root out := by
  obtain ⟨more, -, hstarts⟩ := h
  exact hstarts.of_append

theorem Continues.incomplete (h : Continues root out) : Incomplete (out.map (·.1)) := by
  obtain ⟨more, hmore, node, hnode, rest, hrest⟩ := h
  have harchive : out.map (·.1) ++ (more.map (·.1) ++ rest.map (·.1)) = node.archive := by
    rw [← map_fst_markedArchive root, ← hrest, List.map_append, List.map_append, List.append_assoc]
  refine ⟨node, hnode, ⟨_, harchive⟩, fun heq ↦ ?_⟩
  rw [heq, List.append_right_eq_self, List.append_eq_nil_iff, List.map_eq_nil_iff] at harchive
  exact hmore harchive.1

end ArchiveNode

open Archive ArchiveNode

/-! ## Open directories -/

/-- The directories that are open around an entry, the innermost first: of each the entries that are
done, and the name of the entry that is open. -/
abbrev Enclosing := List (List (Bytes × ArchiveNode) × Bytes)

namespace Enclosing

variable {around : Enclosing} {entries : List (Bytes × ArchiveNode)} {name : Bytes}
  {node : ArchiveNode} (root : Bytes)

/-- The tree with a node in the innermost place. -/
def fill : Enclosing → ArchiveNode → ArchiveNode
  | [], node => node
  | (entries, name) :: outer, node => fill outer (.directory (entries ++ [(name, node)]))

def path : Enclosing → Bytes
  | [] => root
  | (_, name) :: outer => FilePath.join (path outer) name

/-- What stands in front of the innermost place. -/
def front : Enclosing → Marks
  | [] => framed magic
  | (entries, name) :: outer =>
    front outer ++
      (framed openDirectory ++ (markedEntries (path root outer) entries ++ framed (openEntry name)))

/-- What stands behind it. -/
def back : Enclosing → Bytes
  | [] => []
  | _ :: outer => close ++ close ++ back outer

/-- What is written of a directory that is open in the innermost place. -/
def within (around : Enclosing) (entries : List (Bytes × ArchiveNode)) : Marks :=
  around.front root ++ (framed openDirectory ++ markedEntries (path root around) entries)

/-- The names in the open directories increase. -/
def Valid (around : Enclosing) : Prop := ∀ level ∈ around, Admits level.1 level.2

theorem valid_nil : Valid [] := nofun

theorem front_cons (outer : Enclosing) (entries : List (Bytes × ArchiveNode)) (name : Bytes) :
    front root ((entries, name) :: outer)
      = outer.within root entries ++ framed (openEntry name) := by
  simp only [front, within, List.append_assoc]

theorem within_nil (around : Enclosing) :
    around.within root [] = around.front root ++ framed openDirectory := by
  rw [within, markedEntries, List.append_nil]

theorem within_append (outer : Enclosing) (entries : List (Bytes × ArchiveNode)) (name : Bytes)
    (node : ArchiveNode) : outer.within root (entries ++ [(name, node)])
      = front root ((entries, name) :: outer) ++
        node.marked (path root ((entries, name) :: outer)) ++ framed close := by
  simp only [within, front, markedEntries_append, markedEntries, path, List.append_assoc,
    List.append_nil]

/-- An open directory that is closed is a node. -/
theorem within_close (around : Enclosing) (entries : List (Bytes × ArchiveNode)) :
    around.within root entries ++ framed close
      = around.front root ++ (directory entries).marked (path root around) := by
  simp only [within, marked, List.append_assoc]

theorem markedArchive_fill (around : Enclosing) (node : ArchiveNode) :
    (around.fill node).markedArchive root
      = around.front root ++ node.marked (path root around) ++ framed around.back := by
  induction around generalizing node with
  | nil => exact (List.append_nil _).symm
  | cons level outer ih =>
    obtain ⟨entries, name⟩ := level
    rw [fill, ih, ← within_close, within_append, back]
    simp only [framed_append, List.append_assoc]

theorem Valid.wellFormed_fill (h : around.Valid) (hnode : node.WellFormed) :
    (around.fill node).WellFormed := by
  induction around generalizing node with
  | nil => exact hnode
  | cons level outer ih =>
    obtain ⟨hlevel, houter⟩ := List.forall_mem_cons.1 h
    exact ih houter (hlevel.wellFormed_append hnode)

/-! ## What has been written -/

theorem Valid.starts (h : around.Valid) (hnode : node.WellFormed) :
    Starts root (around.front root ++ node.marked (path root around)) := by
  refine ⟨around.fill node, h.wellFormed_fill hnode, ?_⟩
  rw [markedArchive_fill]
  exact List.prefix_append _ _

/-- What stands in front of a node is not complete, since it could be that of a link. -/
theorem Valid.continues_front (h : around.Valid) : Continues root (around.front root) := by
  have hlink : (link []).WellFormed := .link (by decide)
  exact (h.starts root hlink).continues
    (framed_ne_nil (List.append_ne_nil_of_right_ne_nil _ close_ne_nil))

theorem Valid.continues_within (h : around.Valid) (hentries : (directory entries).WellFormed) :
    Continues root (around.within root entries) := by
  have hclosed := h.starts root hentries
  rw [← within_close] at hclosed
  exact hclosed.continues (framed_ne_nil close_ne_nil)

/-! ### Contents of files -/

section

variable {executable : Bool} {data : Bytes} {size : Nat}

theorem front_marked_file (around : Enclosing) (h : data.length = size) :
    around.front root ++ (file executable data).marked (path root around)
      = around.front root ++ framed (openFile executable size) ++
        data.map (·, some (path root around)) ++ framed (closeFile size) := by
  rw [marked, h]
  simp only [List.append_assoc]

/-- Any contents of the right size make a file, so fewer of them can be filled up. -/
theorem Valid.continues_contents (h : around.Valid) (hsize : size < sizeLimit)
    (hdata : data.length ≤ size) :
    Continues root (around.front root ++ framed (openFile executable size) ++
      data.map (·, some (path root around))) := by
  have hfill : (data ++ List.replicate (size - data.length) 0).length = size := by
    rw [List.length_append, List.length_replicate, Nat.add_sub_cancel' hdata]
  have hfile : (file executable (data ++ List.replicate (size - data.length) 0)).WellFormed :=
    .file (by rwa [hfill])
  have hfull := h.starts root hfile
  rw [front_marked_file root around hfill, List.map_append, ← List.append_assoc,
    List.append_assoc _ (List.map _ _)] at hfull
  exact hfull.continues (List.append_ne_nil_of_right_ne_nil _
    (framed_ne_nil (List.append_ne_nil_of_right_ne_nil _ close_ne_nil)))

/-- The start of a file is its beginning with no contents yet. -/
theorem Valid.continues_openFile (h : around.Valid) (hsize : size < sizeLimit) :
    Continues root (around.front root ++ framed (openFile executable size)) := by
  have hnothing : Continues root (around.front root ++ framed (openFile executable size) ++
      List.map (·, some (path root around)) []) := h.continues_contents root hsize (Nat.zero_le _)
  rwa [List.map_nil, List.append_nil] at hnothing

end

end Enclosing

end NixStore
