import NixStore.Proofs.FileTree.Lookup

/-!
# Trees that can be read

A tree can be read at a path if the names in its directories are different names of entries and no
path below is longer than a system call takes. Whatever is then asked about an entry, by the path
that leads to it from the root of the tree, is answered by what the entry is.
-/

namespace NixStore

namespace FileNode

mutual

/-- Whether all of the entry at a path can be read. Nobody asks about a special file. -/
def isReadable (path : Bytes) : FileNode → Bool
  | file .. | link _ => path.length ≤ FilePath.maxLength
  | directory entries =>
    path.length ≤ FilePath.maxLength && (entries.map (·.1)).Nodup && areReadable path entries
  | fifo | socket => true

/-- Whether all entries of the directory at a path can be read, under their names. -/
def areReadable (path : Bytes) : List (Bytes × FileNode) → Bool
  | [] => true
  | (name, node) :: rest =>
    FilePath.IsEntryName name && isReadable (FilePath.join path name) node && areReadable path rest

end

/-- A tree shows an entry with all that is in it: what is asked about each entry is answered by
what it is. -/
inductive Shows (disk : FileNode) : Bytes → FileNode → Prop
  | file {path data mode} (hinspect : disk.inspect path = .ok (.file, ⟨mode, data.length⟩))
      (hopen : (disk.openPath path).map (·.2) = .ok (.ok data)) : Shows disk path (.file data mode)
  | link {path target} (hlink : disk.linkTarget path = .ok target) :
      Shows disk path (.link target)
  | special {path node} (hkind : node.kind = .other) : Shows disk path node
  | directory {path entries} (hlong : path.length ≤ FilePath.maxLength)
      (hlist : disk.listNames path = .ok (entries.map fun e ↦ (e.1, e.2.kind)))
      (hlonger : ∀ e ∈ entries, path.length < (FilePath.join path e.1).length)
      (hentries : ∀ e ∈ entries, Shows disk (FilePath.join path e.1) e.2) :
      Shows disk path (.directory entries)

variable {disk : FileNode} {path : Bytes}

theorem areReadable_iff {entries : List (Bytes × FileNode)} :
    areReadable path entries = true ↔
      ∀ e ∈ entries, FilePath.IsEntryName e.1 ∧ e.2.isReadable (FilePath.join path e.1) = true := by
  induction entries with
  | nil => simp [areReadable]
  | cons e rest ih => simp [areReadable, ih]

theorem isReadable_directory {entries : List (Bytes × FileNode)} :
    (directory entries).isReadable path = true ↔
      path.length ≤ FilePath.maxLength ∧ (entries.map (·.1)).Nodup ∧
        ∀ e ∈ entries, FilePath.IsEntryName e.1 ∧
          e.2.isReadable (FilePath.join path e.1) = true := by
  rw [isReadable, Bool.and_eq_true, Bool.and_eq_true, areReadable_iff, and_assoc]
  simp only [decide_eq_true_eq]

theorem length_le_of_isReadable {node : FileNode} (h : node.isReadable path = true)
    (hkind : node.kind ≠ .other) : path.length ≤ FilePath.maxLength := by
  cases node with
  | file | link => simpa [isReadable] using h
  | directory => exact (isReadable_directory.1 h).1
  | fifo | socket => exact absurd rfl hkind

theorem find?_eq_some_of_mem {entries : List (Bytes × FileNode)}
    (h : (entries.map (·.1)).Nodup) {e : Bytes × FileNode} (he : e ∈ entries) :
    find? e.1 entries = some e.2 := by
  induction entries with
  | nil => exact absurd he List.not_mem_nil
  | cons first rest ih =>
    obtain ⟨hfirst, hrest⟩ := List.nodup_cons.1 h
    rw [find?]
    rcases List.mem_cons.1 he with rfl | he
    · rw [if_pos rfl]
    · have hne : first.1 ≠ e.1 := fun heq ↦ hfirst (List.mem_map.2 ⟨e, he, heq.symm⟩)
      rw [if_neg hne]
      exact ih hrest he

/-! ## What is answered -/

theorem inspect_of_entry {node : FileNode} (h : disk.entry false path = .ok node) :
    disk.inspect path = .ok (node.kind, node.status) := by
  rw [inspect, h]
  rfl

theorem linkTarget_of_entry {target : Bytes} (h : disk.entry false path = .ok (.link target)) :
    disk.linkTarget path = .ok target := by
  rw [linkTarget, h]
  rfl

theorem listNames_of_entry {entries : List (Bytes × FileNode)}
    (h : disk.entry false path = .ok (.directory entries)) :
    disk.listNames path = .ok (entries.map fun e ↦ (e.1, e.2.kind)) := by
  rw [listNames, entry_true_of_entry_false h nofun]
  rfl

theorem openPath_of_entry {data : Bytes} {mode : Nat}
    (h : disk.entry false path = .ok (.file data mode)) :
    (disk.openPath path).map (·.2) = .ok (.ok data) := by
  obtain ⟨t, hlook, hentry⟩ := entry_eq_ok_iff.1 (entry_true_of_entry_false h nofun)
  rw [Trail.entry] at hentry
  simp only [openPath, hlook, bind, Except.bind, hentry]
  rfl

theorem shows_of_isReadable {node : FileNode} (h : node.isReadable path = true)
    (hentry : node.kind ≠ .other → disk.entry false path = .ok node) : Shows disk path node := by
  induction node using FileNode.induction generalizing path with
  | file data mode =>
    have hentry := hentry nofun
    exact .file (inspect_of_entry hentry) (openPath_of_entry hentry)
  | link target => exact .link (linkTarget_of_entry (hentry nofun))
  | fifo | socket => exact .special rfl
  | directory entries ih =>
    have hentry := hentry nofun
    obtain ⟨hlong, hnodup, hentries⟩ := isReadable_directory.1 h
    obtain ⟨t, hlook, -⟩ := entry_eq_ok_iff.1 hentry
    have hempty : path ≠ [] := (lookUp_eq_ok_iff.1 hlook).2.1
    refine .directory hlong (listNames_of_entry hentry) (fun e he ↦ ?_) fun e he ↦ ?_
    · have hname := (hentries e he).1
      exact FilePath.length_lt_length_join hempty hname.slash_not_mem hname.ne_nil
    · obtain ⟨hname, hreadable⟩ := hentries e he
      refine ih e he hreadable fun hkind ↦ ?_
      exact entry_join hentry hname (find?_eq_some_of_mem hnodup he)
        (length_le_of_isReadable hreadable hkind)

end FileNode

end NixStore
