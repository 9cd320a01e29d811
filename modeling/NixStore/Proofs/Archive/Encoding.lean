import NixStore.Proofs.Archive.Transcript
import NixStore.Proofs.Stream.Sinks

/-!
# The archive of a tree is its encoding

The bytes that are written of a tree are the encoding of its canonical form, which is defined by
recursion over the tree and knows nothing of a walk. A special file has no canonical form. A tree
that has one is written up to the first of them; to say how far that is, each special file is
filled in with some node, and the bytes are those that stand in front of the first such node in
the encoding, whatever the node is.
-/

namespace NixStore

/-! ## The bytes of transcripts -/

namespace Transcript

variable {t u : Transcript}

@[simp] theorem bytes_frame (bs : Bytes) : (frame bs).bytes = bs := List.append_nil bs

@[simp] theorem outcome_frame (bs : Bytes) : (frame bs).outcome = .ok () := rfl

theorem outcome_append (t u : Transcript) :
    (t ++ u).outcome = t.outcome >>= fun _ ↦ u.outcome := by
  change (t.append u).outcome = _
  induction t with
  | done | fail => rfl
  | write context bytes rest ih => exact ih

theorem bytes_append_of_ok (h : t.outcome = .ok ()) (u : Transcript) :
    (t ++ u).bytes = t.bytes ++ u.bytes := by
  change (t.append u).bytes = _
  induction t with
  | done => rfl
  | write context bytes rest ih =>
    rw [append, Transcript.bytes, ih h, Transcript.bytes, List.append_assoc]
  | fail e => cases h

theorem bytes_append_of_error {e : EngineError} (h : t.outcome = .error e) (u : Transcript) :
    (t ++ u).bytes = t.bytes := by
  change (t.append u).bytes = _
  induction t with
  | done => cases h
  | write context bytes rest ih => rw [append, Transcript.bytes, ih h, Transcript.bytes]
  | fail e => rfl

theorem outcome_contents (path data : Bytes) : (contents path data).outcome = .ok () := by
  fun_induction contents path data with
  | case1 => rfl
  | case2 b rest ih => exact ih

theorem bytes_contents (path data : Bytes) : (contents path data).bytes = data := by
  fun_induction contents path data with
  | case1 => rfl
  | case2 b rest ih => rw [bytes, ih, List.take_append_drop]

/-- A transcript writes the whole of something, or fails right in front of a part of it. -/
def WritesUpTo (t : Transcript) (part whole : Bytes) : Prop :=
  match t.outcome with
  | .ok () => t.bytes = whole
  | .error _ => t.bytes ++ part <+: whole

theorem writesUpTo_of_ok (h : t.outcome = .ok ()) (part : Bytes) :
    t.WritesUpTo part t.bytes := by
  rw [WritesUpTo, h]

theorem writesUpTo_frame (bs part : Bytes) : (frame bs).WritesUpTo part bs := bytes_frame bs

theorem WritesUpTo.append {part whole more : Bytes} (ht : t.WritesUpTo part whole)
    (hu : u.WritesUpTo part more) : (t ++ u).WritesUpTo part (whole ++ more) := by
  rw [WritesUpTo, outcome_append]
  rw [WritesUpTo] at ht hu
  cases htout : t.outcome with
  | error e =>
    rw [htout] at ht
    simp only [bind, Except.bind]
    rw [bytes_append_of_error htout]
    exact ht.trans (List.prefix_append _ _)
  | ok _ =>
    rw [htout] at ht
    simp only [bind, Except.bind]
    rw [bytes_append_of_ok htout]
    cases huout : u.outcome with
    | ok _ =>
      rw [huout] at hu
      simp only at ht hu ⊢
      rw [ht, hu]
    | error e =>
      rw [huout] at hu
      simp only at ht hu ⊢
      rw [ht, List.append_assoc]
      exact List.prefix_append_right_inj whole |>.2 hu

end Transcript

/-! ## Special files -/

namespace FileNode

mutual

/-- The paths of the special files of a tree, in the order in which the walk comes to them. -/
def specials (path : Bytes) : FileNode → List Bytes
  | file .. | link _ => []
  | directory entries => (Archive.sortEntries (specialsBelow path entries)).flatMap (·.2)
  | fifo | socket => [path]

/-- The same for each entry of the directory at a path. -/
def specialsBelow (path : Bytes) : List (Bytes × FileNode) → List (Bytes × List Bytes)
  | [] => []
  | (name, node) :: rest =>
    (name, specials (FilePath.join path name) node) :: specialsBelow path rest

end

mutual

/-- What an archive holds of an entry, with a node in the place of every special file. -/
def fill (special : ArchiveNode) : FileNode → ArchiveNode
  | file data mode => .file (FileStatus.executable ⟨mode, data.length⟩) data
  | directory entries => .directory (Archive.sortEntries (fillEntries special entries))
  | link target => .link target
  | fifo | socket => special

/-- The same for the entries of a directory. -/
def fillEntries (special : ArchiveNode) : List (Bytes × FileNode) → List (Bytes × ArchiveNode)
  | [] => []
  | (name, node) :: rest => (name, fill special node) :: fillEntries special rest

end

theorem specialsBelow_eq_map (path : Bytes) (entries : List (Bytes × FileNode)) :
    specialsBelow path entries
      = entries.map fun e ↦ (e.1, e.2.specials (FilePath.join path e.1)) := by
  induction entries with
  | nil => rfl
  | cons e rest ih => rw [specialsBelow, ih, List.map_cons]

theorem fillEntries_eq_map (special : ArchiveNode) (entries : List (Bytes × FileNode)) :
    fillEntries special entries = entries.map fun e ↦ (e.1, e.2.fill special) := by
  induction entries with
  | nil => rfl
  | cons e rest ih => rw [fillEntries, ih, List.map_cons]

theorem specials_directory (path : Bytes) (entries : List (Bytes × FileNode)) :
    (directory entries).specials path
      = (Archive.sortEntries entries).flatMap fun e ↦
          e.2.specials (FilePath.join path e.1) := by
  rw [specials, specialsBelow_eq_map, Archive.sortEntries_map, List.flatMap_map]

theorem fill_directory (special : ArchiveNode) (entries : List (Bytes × FileNode)) :
    (directory entries).fill special
      = .directory (fillEntries special (Archive.sortEntries entries)) := by
  rw [fill, fillEntries_eq_map, fillEntries_eq_map, Archive.sortEntries_map]

/-- A tree without special files has a canonical form, and there is nothing to be filled in. -/
theorem canonical?_eq_some_fill {node : FileNode} {path : Bytes} (h : node.specials path = [])
    (special : ArchiveNode) : node.canonical? = some (node.fill special) := by
  induction node using FileNode.induction generalizing path with
  | file | link => rfl
  | fifo | socket => exact absurd h (List.cons_ne_nil _ _)
  | directory entries ih =>
    rw [specials_directory, List.flatMap_eq_nil_iff] at h
    have hentries : canonicalEntries? entries = some (fillEntries special entries) := by
      have hall : ∀ e ∈ entries, e.2.canonical? = some (e.2.fill special) :=
        fun e he ↦ ih e he (h e (Archive.mem_sortEntries.2 he))
      clear ih h
      induction entries with
      | nil => rfl
      | cons e rest ihrest =>
        obtain ⟨he, hrest⟩ := List.forall_mem_cons.1 hall
        rw [canonicalEntries?, he, ihrest hrest]
        rfl
    rw [canonical?, hentries]
    rfl

/-! ## Trees -/

/-- A dump gives up at the first special file. -/
def refusal : List Bytes → Except EngineError Unit
  | [] => .ok ()
  | first :: _ => .error (.unsupported (.fileType first))

theorem refusal_append (ps qs : List Bytes) :
    refusal (ps ++ qs) = refusal ps >>= fun _ ↦ refusal qs := by
  cases ps <;> rfl

theorem outcome_ofEntries {entries : List (Bytes × FileNode)}
    (h : ∀ e ∈ entries, ∀ path, (e.2.transcript path).outcome = refusal (e.2.specials path))
    (path : Bytes) :
    (Transcript.ofEntries (transcripts path entries)).outcome
      = refusal (entries.flatMap fun e ↦ e.2.specials (FilePath.join path e.1)) := by
  induction entries with
  | nil => rfl
  | cons e rest ih =>
    obtain ⟨he, hrest⟩ := List.forall_mem_cons.1 h
    rw [List.flatMap_cons, refusal_append, ← ih hrest, ← he]
    simp only [transcripts, Transcript.ofEntries, Transcript.outcome_append,
      Transcript.outcome_frame]
    rfl

theorem outcome_transcript (node : FileNode) (path : Bytes) :
    (node.transcript path).outcome = refusal (node.specials path) := by
  induction node using FileNode.induction generalizing path with
  | file data mode =>
    rw [transcript, Transcript.outcome_append, Transcript.outcome_append,
      Transcript.outcome_contents]
    rfl
  | link | fifo | socket => rfl
  | directory entries ih =>
    rw [transcript, sortEntries_transcripts, specials_directory, Transcript.outcome_append,
      Transcript.outcome_append,
      outcome_ofEntries fun e he ↦ ih e (Archive.mem_sortEntries.1 he)]
    cases refusal _ <;> rfl

theorem writesUpTo_ofEntries {special : ArchiveNode} {entries : List (Bytes × FileNode)}
    (h : ∀ e ∈ entries, ∀ path,
      (e.2.transcript path).WritesUpTo special.encode (e.2.fill special).encode) (path : Bytes) :
    (Transcript.ofEntries (transcripts path entries)).WritesUpTo special.encode
      (ArchiveNode.encodeEntries (fillEntries special entries)) := by
  induction entries with
  | nil => rfl
  | cons e rest ih =>
    obtain ⟨he, hrest⟩ := List.forall_mem_cons.1 h
    rw [transcripts, Transcript.ofEntries, fillEntries, ArchiveNode.encodeEntries,
      List.append_assoc, List.append_assoc]
    exact (Transcript.writesUpTo_frame _ _).append
      ((he _).append ((Transcript.writesUpTo_frame _ _).append (ih hrest)))

/-- What is written of a tree is its encoding, up to the first special file. -/
theorem writesUpTo_fill (special : ArchiveNode) (node : FileNode) (path : Bytes) :
    (node.transcript path).WritesUpTo special.encode (node.fill special).encode := by
  induction node using FileNode.induction generalizing path with
  | file data mode =>
    have hcontents : (Transcript.contents path data).WritesUpTo special.encode data := by
      have h := Transcript.writesUpTo_of_ok (Transcript.outcome_contents path data) special.encode
      rwa [Transcript.bytes_contents] at h
    rw [transcript, fill, ArchiveNode.encode, List.append_assoc]
    exact (Transcript.writesUpTo_frame _ _).append
      (hcontents.append (Transcript.writesUpTo_frame _ _))
  | link target => exact Transcript.writesUpTo_frame _ _
  | fifo | socket => exact List.prefix_rfl
  | directory entries ih =>
    rw [transcript, sortEntries_transcripts, fill_directory, ArchiveNode.encode, List.append_assoc]
    exact (Transcript.writesUpTo_frame _ _).append
      ((writesUpTo_ofEntries (fun e he ↦ ih e (Archive.mem_sortEntries.1 he)) path).append
        (Transcript.writesUpTo_frame _ _))

theorem bytes_transcript {node : FileNode} {path : Bytes} (h : node.specials path = [])
    (special : ArchiveNode) : (node.transcript path).bytes = (node.fill special).encode := by
  have hwritten := writesUpTo_fill special node path
  rwa [Transcript.WritesUpTo, outcome_transcript, h] at hwritten

/-- A special file is in a directory that ends here, with its name in front of it. -/
def StopsInDirectory (t : Transcript) : Prop :=
  ∃ before dir name, t.outcome = .error (.unsupported (.fileType (FilePath.join dir name))) ∧
    t.bytes = before ++ Archive.openEntry name

theorem StopsInDirectory.append {t : Transcript} (h : StopsInDirectory t) (u : Transcript) :
    StopsInDirectory (t ++ u) := by
  obtain ⟨before, dir, name, hout, hbytes⟩ := h
  refine ⟨before, dir, name, ?_, ?_⟩
  · rw [Transcript.outcome_append, hout]
    rfl
  · rw [Transcript.bytes_append_of_error hout, hbytes]

theorem StopsInDirectory.append_left {t u : Transcript} (ht : t.outcome = .ok ())
    (h : StopsInDirectory u) : StopsInDirectory (t ++ u) := by
  obtain ⟨before, dir, name, hout, hbytes⟩ := h
  refine ⟨t.bytes ++ before, dir, name, ?_, ?_⟩
  · rw [Transcript.outcome_append, ht]
    exact hout
  · rw [Transcript.bytes_append_of_ok ht, hbytes, List.append_assoc]

theorem ok_or_stops_ofEntries {entries : List (Bytes × FileNode)}
    (h : ∀ e ∈ entries, ∀ path, (e.2.transcript path).outcome = .ok () ∨ e.2.kind = .other ∨
      StopsInDirectory (e.2.transcript path)) (path : Bytes) :
    (Transcript.ofEntries (transcripts path entries)).outcome = .ok () ∨
      StopsInDirectory (Transcript.ofEntries (transcripts path entries)) := by
  induction entries with
  | nil => exact .inl rfl
  | cons e rest ih =>
    obtain ⟨he, hrest⟩ := List.forall_mem_cons.1 h
    rw [transcripts, Transcript.ofEntries]
    rcases he (FilePath.join path e.1) with hok | hother | hstops
    · rcases ih hrest with hrestok | hstops
      · left
        rw [Transcript.outcome_append, Transcript.outcome_append, Transcript.outcome_append, hok]
        exact hrestok
      · exact .inr (((hstops.append_left rfl).append_left hok).append_left rfl)
    · obtain ⟨name, node⟩ := e
      cases node with
      | fifo | socket => exact .inr ⟨[], path, name, rfl, List.append_nil _⟩
      | _ => cases hother
    · exact .inr ((hstops.append _).append_left rfl)

/-- What is written of a tree with a special file ends right in front of its node. -/
theorem ok_or_stops (node : FileNode) (path : Bytes) :
    (node.transcript path).outcome = .ok () ∨ node.kind = .other ∨
      StopsInDirectory (node.transcript path) := by
  induction node using FileNode.induction generalizing path with
  | file data mode => exact .inl (outcome_transcript _ path)
  | link target => exact .inl rfl
  | fifo | socket => exact .inr (.inl rfl)
  | directory entries ih =>
    rw [transcript, sortEntries_transcripts]
    have hentries := fun e he ↦ ih e (Archive.mem_sortEntries.1 he)
    rcases ok_or_stops_ofEntries hentries path with hok | hstops
    · left
      rw [Transcript.outcome_append, Transcript.outcome_append, hok]
      rfl
    · exact .inr (.inr ((hstops.append _).append_left rfl))

/-! ## Sinks -/

variable {σ : Type}

/-- Writes the archive of the entry at a path to a sink. -/
def dumpTo (disk : FileNode) (sink : Sink (StateM σ)) (path : Bytes) :
    StateM σ (Except EngineError Unit) :=
  (disk.host.dump path).run.run sink

variable {disk : FileNode} {sink : Sink (StateM σ)} {taken : σ → Bytes}

theorem run_put_host (context : IoContext) (bytes : Bytes) :
    (disk.host.put context bytes).run
      = (Producer.writeAll bytes).bind fun r ↦ .done (r.mapError (.io context)) := by
  rw [ArchiveHost.put, ExceptT.run_bind]
  change (Producer.bind (Producer.bind _ _) _) = _
  rw [Producer.bind_bind]
  refine congrArg _ (funext fun r ↦ ?_)
  cases r <;> rfl

theorem run_transcript (disk : FileNode) (h : sink.TakesAll taken) (t : Transcript) (s : σ) :
    ∃ s', ((t.run disk.host).run.run sink).run s = (t.outcome, s') ∧
      taken s' = taken s ++ t.bytes := by
  induction t generalizing s with
  | done => exact ⟨s, rfl, (List.append_nil _).symm⟩
  | fail e => exact ⟨s, rfl, (List.append_nil _).symm⟩
  | write context bytes rest ih =>
    obtain ⟨s₁, hwrite, htaken⟩ := Producer.run_writeAll h bytes s
    obtain ⟨s₂, hrest, htaken'⟩ := ih s₁
    refine ⟨s₂, ?_, by rw [htaken', htaken, Transcript.bytes, List.append_assoc]⟩
    rw [Transcript.run, ExceptT.run_bind, run_put_host]
    simp only [Producer.bind_eq_bind, Producer.run_bind, StateT.run_bind, hwrite]
    exact hrest

/-- What a dump of a tree that can be read gives, and what a sink that takes everything has taken
of it. -/
theorem run_dumpTo {root : Bytes} {node : FileNode} (hentry : disk.entry false root = .ok node)
    (hreadable : node.isReadable root = true) (hsink : sink.TakesAll taken) (s : σ) :
    ∃ s', (disk.dumpTo sink root).run s = (refusal (node.specials root), s') ∧
      taken s' = taken s ++ (Archive.magic ++ (node.transcript root).bytes) := by
  have hshows : Shows disk root node := shows_of_isReadable hreadable fun _ ↦ hentry
  obtain ⟨s', hrun, htaken⟩ := run_transcript disk hsink
    (Transcript.frame Archive.magic ++ node.transcript root) s
  rw [← dump_host (inspect_of_entry hentry) hshows, Transcript.outcome_append,
    outcome_transcript] at hrun
  rw [Transcript.bytes_append_of_ok (Transcript.outcome_frame _), Transcript.bytes_frame]
    at htaken
  exact ⟨s', hrun, htaken⟩

/-- A tree without special files is written as the encoding of its canonical form. One that has
some is written up to the first of them, which is named; what is written is the start of the
encoding, whatever node is filled in, and ends with the opening of the entry, or with the magic
word if the root itself is special. -/
theorem dump_eq_encoding {root : Bytes} {node : FileNode}
    (hentry : disk.entry false root = .ok node) (hreadable : node.isReadable root = true)
    (hsink : sink.TakesAll taken) (s : σ) :
    ∃ out s', taken s' = taken s ++ out ∧
      match node.specials root with
      | [] =>
        (disk.dumpTo sink root).run s = (.ok (), s') ∧
          ∃ a, node.canonical? = some a ∧ out = a.archive
      | first :: _ =>
        (disk.dumpTo sink root).run s = (.error (.unsupported (.fileType first)), s') ∧
          (∀ special : ArchiveNode,
            out ++ special.encode <+: (node.fill special).archive) ∧
          (node.kind = .other ∧ out = Archive.magic ∨
            ∃ before dir name, first = FilePath.join dir name ∧
              out = before ++ Archive.openEntry name) := by
  obtain ⟨s', hrun, htaken⟩ := run_dumpTo hentry hreadable hsink s
  refine ⟨_, s', htaken, ?_⟩
  cases hspecials : node.specials root with
  | nil =>
    rw [hspecials] at hrun
    refine ⟨hrun, _, canonical?_eq_some_fill hspecials (.link []), ?_⟩
    rw [bytes_transcript hspecials (.link []), ArchiveNode.archive]
  | cons first others =>
    have houtcome : (node.transcript root).outcome = .error (.unsupported (.fileType first)) := by
      rw [outcome_transcript, hspecials]
      rfl
    rw [hspecials] at hrun
    refine ⟨hrun, fun special ↦ ?_, ?_⟩
    · have hwritten := writesUpTo_fill special node root
      rw [Transcript.WritesUpTo, houtcome] at hwritten
      rw [ArchiveNode.archive, List.append_assoc]
      exact (List.prefix_append_right_inj _).2 hwritten
    · rcases ok_or_stops node root with hok | hother | ⟨before, dir, name, hfail, hbytes⟩
      · rw [houtcome] at hok
        cases hok
      · refine .inl ⟨hother, ?_⟩
        cases node with
        | fifo | socket => exact List.append_nil _
        | _ => cases hother
      · rw [houtcome] at hfail
        simp only [Except.error.injEq, EngineError.unsupported.injEq, Unsupported.fileType.injEq]
          at hfail
        refine .inr ⟨Archive.magic ++ before, dir, name, hfail, ?_⟩
        rw [hbytes, List.append_assoc]

/-- A directory whose first entry is two directories deep, with an empty directory behind it. -/
private def nested : FileNode :=
  .directory
    [([0x6C], .link [0x61]), ([0x65], .directory []),
      ([0x61], .directory [([0x62], .directory [([0x66], .file [1, 2, 3] 0o755)])])]

theorem dump_of_nested :
    ∃ s', ((directory [([0x6E], nested)]).dumpTo Sink.collect [0x2F, 0x6E]).run [] = (.ok (), s') ∧
      s' = (ArchiveNode.directory
        [([0x61], .directory [([0x62], .directory [([0x66], .file true [1, 2, 3])])]),
          ([0x65], .directory []), ([0x6C], .link [0x61])]).archive := by
  have hentry : (directory [([0x6E], nested)]).entry false [0x2F, 0x6E] = .ok nested := by
    simp +decide [entry, lookUp, follow, FilePath.names, Text.split, Text.splitFrom, find?, bind,
      Except.bind, pure, Except.pure, nested]
  have hspecials : nested.specials [0x2F, 0x6E] = [] := by
    simp +decide [specials, specialsBelow, Archive.sortEntries, List.mergeSort, nested]
  have hnested : nested.canonical? = some (.directory
      [([0x61], .directory [([0x62], .directory [([0x66], .file true [1, 2, 3])])]),
        ([0x65], .directory []), ([0x6C], .link [0x61])]) := by
    simp +decide [canonical?, canonicalEntries?, Archive.sortEntries, List.mergeSort, nested]
  obtain ⟨out, s', htaken, hwritten⟩ :=
    dump_eq_encoding hentry (by decide) Sink.takesAll_collect []
  rw [hspecials] at hwritten
  obtain ⟨hrun, a, hcanonical, rfl⟩ := hwritten
  rw [hnested] at hcanonical
  obtain rfl := Option.some.inj hcanonical
  exact ⟨s', hrun, htaken⟩

end FileNode

end NixStore
