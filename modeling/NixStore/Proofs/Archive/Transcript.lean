import NixStore.Archive.Still
import NixStore.Proofs.FileTree.Readable

/-!
# What is written of a tree that stands still

The walk over a tree meets its entries in one flat sequence and keeps the depths of the directories
that are open. What it writes is told here by recursion over the tree instead: the transcript of an
entry, piece by piece with what is being done then, up to the end or to a failure.

A directory is closed when the walk comes to the next entry that is not in it, so after the entries
of a directory some of them may still be open. The walk over some entries is therefore compared
with their transcript only together with the closing that comes next, whatever it is that comes.
-/

namespace NixStore

/-- What is written, and how it ends. -/
inductive Transcript where
  | done
  | write (context : IoContext) (bytes : Bytes) (rest : Transcript)
  | fail (e : EngineError)

namespace Transcript

/-- A transcript and what is written after it, unless it has failed. -/
def append : Transcript → Transcript → Transcript
  | done, t => t
  | write context bytes rest, t => write context bytes (rest.append t)
  | fail e, _ => fail e

instance : Append Transcript := ⟨append⟩

/-- Bytes that are not contents of a file. -/
def frame (bytes : Bytes) : Transcript := write .writingArchive bytes done

/-- The contents of the file at a path, in the pieces in which they are read. -/
def contents (path : Bytes) : Bytes → Transcript
  | [] => done
  | b :: rest =>
    write (.archiving path) ((b :: rest).take ArchiveHost.pieceSize)
      (contents path ((b :: rest).drop ArchiveHost.pieceSize))
termination_by data => data.length
decreasing_by
  simp only [List.length_drop, List.length_cons, ArchiveHost.pieceSize]
  omega

/-- The entries of a directory, with their brackets. -/
def ofEntries : List (Bytes × Transcript) → Transcript
  | [] => done
  | (name, t) :: rest =>
    frame (Archive.openEntry name) ++ (t ++ (frame Archive.close ++ ofEntries rest))

def bytes : Transcript → Bytes
  | done | fail _ => []
  | write _ bytes rest => bytes ++ rest.bytes

def outcome : Transcript → Except EngineError Unit
  | done => .ok ()
  | write _ _ rest => rest.outcome
  | fail e => .error e

def run {m : Type → Type} [Monad m] {η : Type} (h : ArchiveHost m η) :
    Transcript → ExceptT EngineError m Unit
  | done => pure ()
  | write context bytes rest => do
    h.put context bytes
    rest.run h
  | fail e => throw e

end Transcript

namespace FileNode

mutual

/-- What is written of the entry at a path. -/
def transcript (path : Bytes) : FileNode → Transcript
  | file data mode =>
    .frame (Archive.openFile (FileStatus.executable ⟨mode, data.length⟩) data.length) ++
      (.contents path data ++ .frame (Archive.closeFile data.length))
  | directory entries =>
    .frame Archive.openDirectory ++
      (.ofEntries (Archive.sortEntries (transcripts path entries)) ++ .frame Archive.close)
  | link target => .frame (Archive.linkNode target)
  | fifo | socket => .fail (.unsupported (.fileType path))

/-- What is written of each entry of the directory at a path. -/
def transcripts (path : Bytes) : List (Bytes × FileNode) → List (Bytes × Transcript)
  | [] => []
  | (name, node) :: rest =>
    (name, transcript (FilePath.join path name) node) :: transcripts path rest

end

end FileNode

/-! ## Running transcripts -/

namespace Transcript

variable {m : Type → Type} [Monad m] [LawfulMonad m] {η : Type} {h : ArchiveHost m η}

@[simp] theorem run_append (t u : Transcript) : (t ++ u).run h = t.run h >>= fun _ ↦ u.run h := by
  change (t.append u).run h = _
  induction t with
  | done => rw [append, run, pure_bind]
  | write context bytes rest ih =>
    simp only [append, run, bind_assoc]
    rw [ih]
  | fail e => exact (ExceptT.bind_throw _).symm

@[simp] theorem run_frame (bytes : Bytes) :
    (frame bytes).run h = h.put .writingArchive bytes :=
  bind_pure_unit

end Transcript

/-! ## Closing directories -/

namespace ArchiveHost

variable {m : Type → Type} [Monad m] {η : Type} (h : ArchiveHost m η)

theorem closeDownTo_cons_of_lt {d top : Nat} (hlt : top < d) (rest : List Nat) :
    h.closeDownTo d (top :: rest) = pure (top :: rest) := by
  rw [closeDownTo, if_neg (Nat.not_le.2 hlt)]

theorem putAround_of_pos {d : Nat} (hd : 0 < d) (bs : Bytes) :
    h.putAround d bs = h.put .writingArchive bs := if_pos hd

theorem visit_leaf {d : Nat} (hd : 0 < d) {kind : FileKind} (hkind : kind ≠ .directory)
    (path name : Bytes) (openDirs : List Nat) :
    h.visit d path name kind openDirs = h.closeDownTo d openDirs >>= fun base ↦ do
      h.put .writingArchive (Archive.openEntry name)
      h.dumpLeaf path kind
      h.put .writingArchive Archive.close
      return base := by
  simp only [visit, putAround_of_pos h hd, if_neg hkind]

theorem visit_directory {d : Nat} (hd : 0 < d) (path name : Bytes) (openDirs : List Nat) :
    h.visit d path name .directory openDirs = h.closeDownTo d openDirs >>= fun base ↦ do
      h.put .writingArchive (Archive.openEntry name)
      h.put .writingArchive Archive.openDirectory
      return d :: base := by
  simp only [visit, putAround_of_pos h hd, if_true]

theorem walk_leaf {d : Nat} {kind : FileKind} (hkind : kind ≠ .directory) (path name : Bytes)
    (openDirs : List Nat) (rest : List (Bytes × FileKind)) :
    h.walk d path openDirs ((name, kind) :: rest)
      = h.visit d (FilePath.join path name) name kind openDirs >>= fun openDirs ↦
          h.walk d path openDirs rest := by
  rw [walk]
  simp only [if_neg hkind]

variable [LawfulMonad m]

theorem walk_directory {d : Nat} {path name : Bytes} {entries : List (Bytes × FileKind)}
    (hlonger : path.length < (FilePath.join path name).length)
    (hlong : (FilePath.join path name).length ≤ FilePath.maxLength)
    (hlist : h.list (FilePath.join path name) = pure (.ok entries)) (openDirs : List Nat)
    (rest : List (Bytes × FileKind)) :
    h.walk d path openDirs ((name, .directory) :: rest)
      = h.visit d (FilePath.join path name) name .directory openDirs >>= fun openDirs ↦
          h.walk (d + 1) (FilePath.join path name) openDirs (Archive.sortEntries entries) >>=
            fun openDirs ↦ h.walk d path openDirs rest := by
  rw [walk]
  simp only [if_true, dif_pos (And.intro hlonger hlong), hlist, liftM_pure, pure_bind]

/-- Closing down to a depth and then further is closing further at once. -/
theorem closeDownTo_closeDownTo {d d' : Nat} (hle : d ≤ d') (openDirs : List Nat) :
    h.closeDownTo d' openDirs >>= h.closeDownTo d = h.closeDownTo d openDirs := by
  induction openDirs with
  | nil => rw [closeDownTo, pure_bind]
  | cons top rest ih =>
    rw [closeDownTo]
    by_cases htop : d' ≤ top
    · rw [if_pos htop, closeDownTo, if_pos (Nat.le_trans hle htop)]
      simp only [bind_assoc]
      rw [ih]
    · rw [if_neg htop, pure_bind]

/-- Which directories stay open does not depend on how closing the others goes. -/
theorem closeDownTo_eq (d : Nat) (openDirs : List Nat) :
    ∃ (closing : ExceptT EngineError m Unit) (base : List Nat),
      h.closeDownTo d openDirs = (closing >>= fun _ ↦ pure base) ∧
        h.closeDownTo d base = pure base := by
  induction openDirs with
  | nil => exact ⟨pure (), [], by rw [pure_bind, closeDownTo], rfl⟩
  | cons top rest ih =>
    by_cases htop : d ≤ top
    · obtain ⟨closing, base, hclosing, hbase⟩ := ih
      refine ⟨do h.put .writingArchive Archive.close; h.putAround top Archive.close; closing, base,
        ?_, hbase⟩
      rw [closeDownTo, if_pos htop, hclosing]
      simp only [bind_assoc]
    · have hopen := closeDownTo_cons_of_lt h (Nat.not_le.1 htop) rest
      exact ⟨pure (), top :: rest, by rw [hopen, pure_bind], hopen⟩

end ArchiveHost

/-! ## Looking at a tree -/

namespace FileNode

variable {disk : FileNode}

@[simp] theorem inspect_host (path : Bytes) :
    disk.host.inspect path = pure (disk.inspect path) := rfl

@[simp] theorem list_host (path : Bytes) : disk.host.list path = pure (disk.listNames path) := rfl

@[simp] theorem readLink_host (path : Bytes) :
    disk.host.readLink path = pure (disk.linkTarget path) := rfl

@[simp] theorem openFile_host (path : Bytes) :
    disk.host.openFile path = pure ((disk.openPath path).map (·.2)) := rfl

theorem read_host (data : Bytes) (n : Nat) :
    disk.host.read (.ok data) (min data.length n)
      = pure (.ok (data.take n), .ok (data.drop n)) := by
  rw [List.take_eq_take_min, List.drop_eq_drop_min, Nat.min_comm]
  rfl

theorem copy_host (path data : Bytes) :
    disk.host.copy path (.ok data) data.length
      = (Transcript.contents path data).run disk.host >>= fun _ ↦ pure 0 := by
  fun_induction Transcript.contents path data with
  | case1 =>
    rw [ArchiveHost.copy, Transcript.run, pure_bind]
    rfl
  | case2 b rest ih =>
    have hpiece : (b :: rest).take ArchiveHost.pieceSize
        = b :: rest.take (ArchiveHost.pieceSize - 1) := rfl
    have hleft : (b :: rest).length - ((rest.take (ArchiveHost.pieceSize - 1)).length + 1)
        = ((b :: rest).drop ArchiveHost.pieceSize).length := by
      simp only [List.length_cons, List.length_take, List.length_drop, ArchiveHost.pieceSize]
      omega
    rw [ArchiveHost.copy, if_neg (by simp), read_host, liftM_pure, pure_bind, Transcript.run,
      hpiece]
    simp only [hleft, ih, bind_assoc]

/-- An entry that is not a directory is written when the walk comes to it. -/
theorem dumpLeaf_host {path : Bytes} {node : FileNode} (h : Shows disk path node)
    (hkind : node.kind ≠ .directory) :
    disk.host.dumpLeaf path node.kind = (node.transcript path).run disk.host := by
  cases h with
  | @file _ data mode hinspect hopen =>
    simp only [kind, ArchiveHost.dumpLeaf, inspect_host, hinspect, liftM_pure, pure_bind]
    simp only [ArchiveHost.dumpFile, openFile_host, hopen, liftM_pure, pure_bind, copy_host,
      transcript, Transcript.run_append, Transcript.run_frame, bind_assoc, if_true]
  | link hlink =>
    simp only [kind, ArchiveHost.dumpLeaf, readLink_host, hlink, liftM_pure, pure_bind, transcript,
      Transcript.run_frame]
  | special hother =>
    cases node with
    | fifo | socket => rfl
    | _ => exact absurd hother (by simp [kind])
  | directory => exact absurd rfl hkind

/-! ## The walk -/

theorem transcripts_eq_map (path : Bytes) (entries : List (Bytes × FileNode)) :
    transcripts path entries
      = entries.map fun e ↦ (e.1, e.2.transcript (FilePath.join path e.1)) := by
  induction entries with
  | nil => rfl
  | cons e rest ih => rw [transcripts, ih, List.map_cons]

theorem sortEntries_transcripts (path : Bytes) (entries : List (Bytes × FileNode)) :
    Archive.sortEntries (transcripts path entries)
      = transcripts path (Archive.sortEntries entries) := by
  rw [transcripts_eq_map, transcripts_eq_map, Archive.sortEntries_map]

/-- The walk over some entries of a directory, with the closing that comes next, writes what is to
be closed before them and then their transcript. -/
def WalkWrites (disk : FileNode) (path : Bytes) (entries : List (Bytes × FileNode)) : Prop :=
  ∀ d openDirs, 0 < d →
    disk.host.walk d path openDirs (entries.map fun e ↦ (e.1, e.2.kind)) >>=
        disk.host.closeDownTo d
      = disk.host.closeDownTo d openDirs >>= fun base ↦
          (Transcript.ofEntries (transcripts path entries)).run disk.host >>= fun _ ↦ pure base

variable {path name : Bytes} {rest : List (Bytes × FileNode)}

theorem walkWrites_nil (path : Bytes) : WalkWrites disk path [] := by
  intro d openDirs hd
  rw [List.map_nil, ArchiveHost.walk, pure_bind]
  simp only [transcripts, Transcript.ofEntries, Transcript.run, pure_bind, bind_pure]

theorem WalkWrites.cons_leaf {node : FileNode} (hrest : WalkWrites disk path rest)
    (hkind : node.kind ≠ .directory) (h : Shows disk (FilePath.join path name) node) :
    WalkWrites disk path ((name, node) :: rest) := by
  intro d openDirs hd
  obtain ⟨closing, base, hclosing, hbase⟩ := disk.host.closeDownTo_eq d openDirs
  rw [List.map_cons, ArchiveHost.walk_leaf _ hkind, ArchiveHost.visit_leaf _ hd hkind, hclosing,
    dumpLeaf_host h hkind]
  simp only [bind_assoc, pure_bind, hrest d _ hd, hbase, transcripts, Transcript.ofEntries,
    Transcript.run_append, Transcript.run_frame]

/-- The directory at a depth stays open for its entries, and is closed by whatever comes next. -/
theorem WalkWrites.close (h : WalkWrites disk path rest) (d : Nat) (base : List Nat) :
    disk.host.walk (d + 1) path (d :: base) (rest.map fun e ↦ (e.1, e.2.kind)) >>=
        disk.host.closeDownTo d
      = (Transcript.ofEntries (transcripts path rest)).run disk.host >>= fun _ ↦
          disk.host.closeDownTo d (d :: base) := by
  calc disk.host.walk (d + 1) path (d :: base) (rest.map fun e ↦ (e.1, e.2.kind)) >>=
        disk.host.closeDownTo d
      = disk.host.walk (d + 1) path (d :: base) (rest.map fun e ↦ (e.1, e.2.kind)) >>=
          disk.host.closeDownTo (d + 1) >>= disk.host.closeDownTo d := by
        rw [bind_assoc]
        exact congrArg (_ >>= ·) (funext fun openDirs ↦
          (disk.host.closeDownTo_closeDownTo (Nat.le_succ d) openDirs).symm)
    _ = _ := by
        rw [h (d + 1) (d :: base) (Nat.succ_pos d),
          ArchiveHost.closeDownTo_cons_of_lt _ (Nat.lt_succ_self d)]
        simp only [pure_bind, bind_assoc]

theorem WalkWrites.cons_directory {entries : List (Bytes × FileNode)}
    (hrest : WalkWrites disk path rest)
    (hentries : WalkWrites disk (FilePath.join path name) (Archive.sortEntries entries))
    (hlonger : path.length < (FilePath.join path name).length)
    (hlong : (FilePath.join path name).length ≤ FilePath.maxLength)
    (hlist : disk.listNames (FilePath.join path name)
      = .ok (entries.map fun e ↦ (e.1, e.2.kind))) :
    WalkWrites disk path ((name, .directory entries) :: rest) := by
  intro d openDirs hd
  obtain ⟨closing, base, hclosing, hbase⟩ := disk.host.closeDownTo_eq d openDirs
  have hlist' : disk.host.list (FilePath.join path name)
      = pure (.ok (entries.map fun e ↦ (e.1, e.2.kind))) := by
    rw [list_host, hlist]
  have hinner := hentries.close d base
  rw [ArchiveHost.closeDownTo, if_pos (Nat.le_refl d), hbase, ArchiveHost.putAround_of_pos _ hd]
    at hinner
  rw [List.map_cons, kind, ArchiveHost.walk_directory _ hlonger hlong hlist',
    ArchiveHost.visit_directory _ hd, hclosing, Archive.sortEntries_map]
  simp only [bind_assoc, pure_bind, hrest d _ hd]
  simp only [← bind_assoc _ (disk.host.closeDownTo d), hinner]
  simp only [bind_assoc, pure_bind, transcripts, transcript, sortEntries_transcripts,
    Transcript.ofEntries, Transcript.run_append, Transcript.run_frame]

/-- The walk over the entries of a directory that is shown, in their order. -/
theorem Shows.walkWrites {node : FileNode} (h : Shows disk path node) :
    ∀ entries, node = .directory entries → WalkWrites disk path (Archive.sortEntries entries) := by
  induction h with
  | file | link =>
    intro entries h
    cases h
  | special hkind =>
    rintro entries rfl
    cases hkind
  | @directory path entries hlong hlist hlonger hentries ih =>
    rintro _ ⟨⟩
    suffices hall : ∀ some : List (Bytes × FileNode), (∀ e ∈ some, e ∈ entries) →
        WalkWrites disk path some from
      hall _ fun e he ↦ Archive.mem_sortEntries.1 he
    intro some hsome
    induction some with
    | nil => exact walkWrites_nil path
    | cons e rest ihrest =>
      obtain ⟨he, hrest⟩ := List.forall_mem_cons.1 hsome
      obtain ⟨name, node⟩ := e
      have hshown := hentries _ he
      by_cases hkind : node.kind = .directory
      · cases hshown with
        | directory hlong' hlist' =>
          exact (ihrest hrest).cons_directory (ih _ he _ rfl) (hlonger _ he) hlong' hlist'
        | special hother => cases hkind.symm.trans hother
        | file | link => cases hkind
      · exact (ihrest hrest).cons_leaf hkind hshown

/-- What is written of a tree that stands still is the transcript of the tree behind the magic
word. -/
theorem dump_host {root : Bytes} {node : FileNode} {status : FileStatus}
    (hinspect : disk.inspect root = .ok (node.kind, status)) (h : Shows disk root node) :
    disk.host.dump root
      = (Transcript.frame Archive.magic ++ node.transcript root).run disk.host := by
  have hroot : ∀ bs, disk.host.putAround 0 bs = pure () := fun _ ↦ rfl
  rw [ArchiveHost.dump, inspect_host, hinspect]
  simp only [liftM_pure, pure_bind, Transcript.run_append, Transcript.run_frame]
  by_cases hkind : node.kind = .directory
  · cases h with
    | @directory _ entries hlong hlist hlonger hentries =>
      have hwalk := (Shows.directory hlong hlist hlonger hentries).walkWrites entries rfl
      have hclose := hwalk.close 0 []
      rw [ArchiveHost.closeDownTo, if_pos (Nat.zero_le 0), hroot, pure_bind] at hclose
      simp only [hkind, list_host, hlist, liftM_pure, pure_bind, ArchiveHost.visit, hroot,
        ArchiveHost.closeDownTo, if_true, bind_assoc, Archive.sortEntries_map]
      simp only [← bind_assoc _ (disk.host.closeDownTo 0)]
      rw [hclose]
      simp only [bind_assoc, ArchiveHost.closeDownTo, pure_bind, bind_pure_unit, transcript,
        sortEntries_transcripts, Transcript.run_append, Transcript.run_frame]
    | special hother => cases hkind.symm.trans hother
    | file | link => cases hkind
  · have hvisit : disk.host.visit 0 root [] node.kind []
        = (node.transcript root).run disk.host >>= fun _ ↦ pure [] := by
      simp only [ArchiveHost.visit, ArchiveHost.closeDownTo, hroot, pure_bind, if_neg hkind,
        dumpLeaf_host h hkind]
    have hunit : ((node.transcript root).run disk.host >>= fun _ ↦ pure ())
        = (node.transcript root).run disk.host := bind_pure_unit
    cases hnode : node.kind with
    | directory => exact absurd hnode hkind
    | _ => simp only [← hnode, hvisit, bind_assoc, pure_bind, hunit]

end FileNode

end NixStore
