import NixStore.Proofs.Archive.Encoding
import NixStore.Proofs.Archive.Live
import NixStore.Proofs.Archive.Marks
import NixStore.Proofs.Stream.Delivery

/-!
# Where a sink cuts an archive

A sink with room for only so many bytes has the first bytes of an archive in the end, however many
it takes at once. The error tells what was being written, and that is what the first byte was that
the sink did not take: a byte of a file's contents, or of the frame around it.

A transcript says for each piece what is being done, so every byte of it has a context. Each piece
is delivered whole or cut, and it is cut at the byte that is as many bytes into it as there is room
for. So by induction on the transcript the context of the error is that of the byte whose number is
the room at the start. That these contexts are the marks of the archive is shown by recursion over
the tree, without any sink.
-/

namespace NixStore

/-! ## The marks of transcripts -/

namespace IoContext

/-- What is being done when a byte is written. -/
def ofMark (mark : UInt8 × Option Bytes) : UInt8 × IoContext :=
  (mark.1, mark.2.elim .writingArchive .archiving)

end IoContext

namespace Transcript

variable {t u : Transcript}

/-- All bytes that are written, each with what is being done then. -/
def marks : Transcript → List (UInt8 × IoContext)
  | done | fail _ => []
  | write context bytes rest => bytes.map (·, context) ++ rest.marks

theorem marks_append_of_ok (h : t.outcome = .ok ()) (u : Transcript) :
    (t ++ u).marks = t.marks ++ u.marks := by
  change (t.append u).marks = _
  induction t with
  | done => rfl
  | write context bytes rest ih => rw [append, marks, ih h, marks, List.append_assoc]
  | fail e => cases h

/-- A transcript does not fail, and writes marked bytes. -/
structure Completes (t : Transcript) (marked : Marks) : Prop where
  outcome_eq : t.outcome = .ok ()
  marks_eq : t.marks = marked.map IoContext.ofMark

theorem Completes.append {marked more : Marks} (ht : t.Completes marked)
    (hu : u.Completes more) : (t ++ u).Completes (marked ++ more) where
  outcome_eq := by
    rw [outcome_append, ht.outcome_eq, hu.outcome_eq]
    rfl
  marks_eq := by rw [marks_append_of_ok ht.outcome_eq, ht.marks_eq, hu.marks_eq, List.map_append]

theorem completes_frame (bytes : Bytes) : (frame bytes).Completes (Archive.framed bytes) where
  outcome_eq := rfl
  marks_eq := by
    rw [frame, marks, marks, List.append_nil, Archive.framed, List.map_map]
    rfl

theorem completes_contents (path data : Bytes) :
    (contents path data).Completes (data.map (·, some path)) where
  outcome_eq := outcome_contents path data
  marks_eq := by
    fun_induction contents path data with
    | case1 => rfl
    | case2 b rest ih =>
      rw [marks, ih, List.map_map, List.map_map]
      change ((b :: rest).take _).map (·, IoContext.archiving path) ++
        ((b :: rest).drop _).map (·, IoContext.archiving path) = _
      rw [← List.map_append, List.take_append_drop]
      rfl

end Transcript

namespace FileNode

theorem completes_ofEntries {special : ArchiveNode} {path : Bytes}
    {entries : List (Bytes × FileNode)}
    (h : ∀ e ∈ entries, (e.2.transcript (FilePath.join path e.1)).Completes
      ((e.2.fill special).marked (FilePath.join path e.1))) :
    (Transcript.ofEntries (transcripts path entries)).Completes
      (ArchiveNode.markedEntries path (fillEntries special entries)) := by
  induction entries with
  | nil => exact ⟨rfl, rfl⟩
  | cons e rest ih =>
    obtain ⟨he, hrest⟩ := List.forall_mem_cons.1 h
    rw [transcripts, Transcript.ofEntries, fillEntries, ArchiveNode.markedEntries]
    exact (Transcript.completes_frame _).append
      (he.append ((Transcript.completes_frame _).append (ih hrest)))

/-- What is being done at each byte of a tree without special files is told by the marks. -/
theorem completes_transcript {node : FileNode} {path : Bytes} (h : node.specials path = [])
    (special : ArchiveNode) :
    (node.transcript path).Completes ((node.fill special).marked path) := by
  induction node using FileNode.induction generalizing path with
  | file data mode =>
    rw [transcript, fill, ArchiveNode.marked]
    exact (Transcript.completes_frame _).append
      ((Transcript.completes_contents path data).append (Transcript.completes_frame _))
  | link target => exact Transcript.completes_frame _
  | fifo | socket => exact absurd h (List.cons_ne_nil _ _)
  | directory entries ih =>
    rw [specials_directory, List.flatMap_eq_nil_iff] at h
    rw [transcript, sortEntries_transcripts, fill_directory, ArchiveNode.marked]
    exact (Transcript.completes_frame _).append
      ((completes_ofEntries fun e he ↦ ih e (Archive.mem_sortEntries.1 he) (h e he)).append
        (Transcript.completes_frame _))

end FileNode

/-! ## Sinks with limits -/

namespace Producer

variable {m : Type → Type} [Monad m]

theorem run_writeAll_eq (sink : Sink m) (data : Bytes) :
    (writeAll data).run sink = sink.deliver .incomplete data := by
  induction data using writeAll.induct with
  | case1 =>
    rw [writeAll, Sink.deliver]
    rfl
  | case2 b rest ih =>
    rw [writeAll, run, Sink.deliver]
    refine congrArg (sink.write (b :: rest) >>= ·) (funext fun r ↦ ?_)
    rcases r with e | _ | n
    · rfl
    · rfl
    · exact ih n

end Producer

namespace SinkView

variable {σ : Type} {view : SinkView σ} {sink : Sink (StateM σ)}

/-- What writing some bytes came to that each have a context: what there was room for was taken, and
if that was not all of it, the error has the context of the first byte that was not taken. -/
structure Wrote (view : SinkView σ) (marks : List (UInt8 × IoContext)) (s : σ)
    (r : Except EngineError Unit) (s' : σ) : Prop where
  took : view.Took s (marks.map (·.1)) s'
  complete : view.Fits s (marks.map (·.1)) → r = .ok ()
  cut : ∀ k b context, view.room s = some k → marks[k]? = some (b, context) →
    ∃ e, r = .error (.io context e)

section

variable {marks : List (UInt8 × IoContext)} {s s₁ s' : σ} {bytes : Bytes} {context : IoContext}

theorem map_fst_piece (bytes : Bytes) (context : IoContext) (marks : List (UInt8 × IoContext)) :
    (bytes.map (·, context) ++ marks).map (·.1) = bytes ++ marks.map (·.1) := by
  rw [List.map_append, List.map_map]
  exact congrArg (· ++ _) (List.map_id bytes)

theorem Wrote.nothing (view : SinkView σ) (s : σ) : view.Wrote [] s (.ok ()) s where
  took := .nothing view s
  complete _ := rfl
  cut _ _ _ _ hmark := by cases hmark

/-- There was room for a piece, and then it is as with what comes behind it. -/
theorem Wrote.of_fits {r : Except EngineError Unit} (htook : view.Took s bytes s₁)
    (hfits : view.Fits s bytes) (h : view.Wrote marks s₁ r s') :
    view.Wrote (bytes.map (·, context) ++ marks) s r s' where
  took := by
    rw [map_fst_piece]
    exact htook.trans hfits h.took
  complete hall := by
    rw [map_fst_piece] at hall
    exact h.complete ((htook.fits_iff hfits).2 hall)
  cut k b c hroom hmark := by
    have hle := hfits k hroom
    rw [List.getElem?_append_right (by rwa [List.length_map]), List.length_map] at hmark
    refine h.cut _ b c ?_ hmark
    rw [htook.room_eq hfits, hroom]
    rfl

theorem Wrote.of_not_fits (htook : view.Took s bytes s₁) (hfull : ¬view.Fits s bytes)
    (marks : List (UInt8 × IoContext)) (e : IoError) :
    view.Wrote (bytes.map (·, context) ++ marks) s (.error (.io context e)) s₁ where
  took := by
    rw [map_fst_piece]
    exact htook.of_not_fits hfull
  complete hall := by
    rw [map_fst_piece] at hall
    exact absurd hall.of_append hfull
  cut k b c hroom hmark := by
    obtain ⟨k', hroom', hlt⟩ := not_fits_iff.1 hfull
    obtain rfl : k' = k := Option.some.inj (hroom'.symm.trans hroom)
    rw [List.getElem?_append_left (by rwa [List.length_map]), List.getElem?_map,
      Option.map_eq_some_iff] at hmark
    obtain ⟨_, -, hmark⟩ := hmark
    exact ⟨e, by rw [(Prod.mk.inj hmark).2]⟩

theorem Wrote.eq_ok_iff {r : Except EngineError Unit} (h : view.Wrote marks s r s') :
    r = .ok () ↔ view.Fits s (marks.map (·.1)) := by
  refine ⟨fun hok ↦ Classical.not_not.1 fun hfull ↦ ?_, h.complete⟩
  -- a byte that was not taken would have been an error
  obtain ⟨k, hroom, hlt⟩ := not_fits_iff.1 hfull
  rw [List.length_map] at hlt
  obtain ⟨e, he⟩ := h.cut k _ _ hroom (List.getElem?_eq_getElem hlt)
  rw [hok] at he
  cases he

end

/-- A transcript that does not fail is written as far as there is room. -/
theorem Accepts.exists_wrote (h : view.Accepts sink) (disk : FileNode) {t : Transcript}
    (hok : t.outcome = .ok ()) (s : σ) :
    ∃ r s', ((t.run disk.host).run.run sink).run s = (r, s') ∧ view.Wrote t.marks s r s' := by
  induction t generalizing s with
  | done => exact ⟨.ok (), s, rfl, .nothing view s⟩
  | fail e => cases hok
  | write context bytes rest ih =>
    obtain ⟨r, s₁, hwrite, hr, htook⟩ := h.deliver .incomplete bytes s
    rw [← Producer.run_writeAll_eq] at hwrite
    rw [Transcript.run, ExceptT.run_bind, FileNode.run_put_host, Transcript.marks]
    simp only [Producer.bind_eq_bind, Producer.run_bind, StateT.run_bind, hwrite]
    cases r with
    | ok _ =>
      obtain ⟨r, s₂, hrest, hwrote⟩ := ih hok s₁
      exact ⟨r, s₂, hrest, .of_fits htook (hr.1 rfl) hwrote⟩
    | error e =>
      have hfull : ¬view.Fits s bytes := fun hfits ↦ by cases hr.2 hfits
      exact ⟨_, s₁, rfl, .of_not_fits htook hfull rest.marks e⟩

theorem Accepts.exists_dump (h : view.Accepts sink) {disk node : FileNode} {root : Bytes}
    (hentry : disk.entry false root = .ok node) (hreadable : node.isReadable root = true)
    (hspecials : node.specials root = []) (special : ArchiveNode) (s : σ) :
    ∃ r s', (disk.dumpTo sink root).run s = (r, s') ∧
      view.Wrote (((node.fill special).markedArchive root).map IoContext.ofMark) s r s' := by
  have hshows : FileNode.Shows disk root node :=
    FileNode.shows_of_isReadable hreadable fun _ ↦ hentry
  have hcompletes := (Transcript.completes_frame Archive.magic).append
    (FileNode.completes_transcript hspecials special)
  obtain ⟨r, s', hrun, hwrote⟩ := h.exists_wrote disk hcompletes.outcome_eq s
  rw [← FileNode.dump_host (FileNode.inspect_of_entry hentry) hshows] at hrun
  rw [hcompletes.marks_eq] at hwrote
  exact ⟨r, s', hrun, hwrote⟩

end SinkView

namespace LiveTree

def sinkView (total : Option Nat) : SinkView LiveTree where
  held := bytes
  room t := total.map (· - t.taken)
  flushes _ := []

theorem room_sinkView (total : Option Nat) (t : LiveTree) :
    (sinkView total).room t = total.map (· - t.taken) := rfl

theorem room_start (disk : FileNode) (total : Option Nat) :
    (sinkView total).room (start disk []) = total := by
  cases total <;> rfl

theorem bytes_makeDue (t : LiveTree) (changes : List (Nat × FileChange)) :
    (t.makeDue changes).bytes = t.bytes ∧ (t.makeDue changes).taken = t.taken := by
  induction changes generalizing t with
  | nil => exact ⟨rfl, rfl⟩
  | cons due rest ih =>
    obtain ⟨after, c⟩ := due
    rw [makeDue]
    split
    · have htaken : (t.change c).taken = t.taken := by
        rw [change]
        cases c.resolve t.disk <;> rfl
      rw [(ih _).1, (ih _).2, bytes_change, htaken]
      exact ⟨rfl, rfl⟩
    · exact ⟨rfl, rfl⟩

theorem bytes_take (t : LiveTree) (piece : Bytes) :
    (t.take piece).bytes = t.bytes ++ piece ∧ (t.take piece).taken = t.taken + piece.length := by
  obtain ⟨hbytes, htaken⟩ := bytes_makeDue
    { t with pieces := piece :: t.pieces, taken := t.taken + piece.length } t.changes
  refine ⟨hbytes.trans ?_, htaken⟩
  simp only [bytes, List.reverse_cons, List.flatten_append, List.flatten_singleton]

variable {limits : SinkLimits} {t : LiveTree} {data : Bytes}

theorem isOpen_iff : ¬limits.total.any (· ≤ t.taken) = true ↔
    (sinkView limits.total).room t ≠ some 0 := by
  rw [room_sinkView]
  cases limits.total with
  | none => simp
  | some n => simp [Nat.sub_eq_zero_iff_le]

/-- Something is taken as long as there is room, and no more than that. -/
theorem accepted_of_room (hpos : limits.atOnce ≠ some 0) (hdata : data ≠ [])
    (hroom : (sinkView limits.total).room t ≠ some 0) :
    t.accepted limits data ≠ [] ∧
      ∀ k ∈ (sinkView limits.total).room t, (t.accepted limits data).length ≤ k := by
  obtain ⟨total, atOnce, silent⟩ := limits
  have hpiece : ∃ piece, piece ≠ [] ∧ t.accepted ⟨total, atOnce, silent⟩ data =
      (total.map (· - t.taken)).elim piece piece.take := by
    cases atOnce with
    | none => exact ⟨data, hdata, by cases total <;> rfl⟩
    | some m =>
      refine ⟨data.take m, ?_, by cases total <;> rfl⟩
      rw [ne_eq, List.take_eq_nil_iff, not_or]
      exact ⟨fun hm ↦ hpos (congrArg some hm), hdata⟩
  obtain ⟨piece, hne, haccepted⟩ := hpiece
  rw [haccepted]
  rw [room_sinkView] at hroom ⊢
  cases hleft : total.map (· - t.taken) with
  | none => exact ⟨hne, fun k hk ↦ by cases hk⟩
  | some k =>
    refine ⟨?_, fun k' hk ↦ ?_⟩
    · rw [Option.elim, ne_eq, List.take_eq_nil_iff, not_or]
      exact ⟨fun hk ↦ hroom (by rw [hleft, hk]), hne⟩
    · obtain rfl := Option.some.inj hk
      exact List.length_take_le _ _

theorem accepts_sink (hpos : limits.atOnce ≠ some 0) :
    (sinkView limits.total).Accepts (sink limits) where
  takes data t hdata hroom := by
    obtain ⟨hne, hle⟩ := accepted_of_room hpos hdata hroom
    have hopen : ¬(limits.total.any (· ≤ t.taken) && !limits.silent) = true := fun hclosed ↦
      isOpen_iff.2 hroom (Bool.and_eq_true_iff.1 hclosed).1
    have hprefix : t.accepted limits data <+: data := t.accepted_prefix data
    obtain ⟨hbytes, htaken⟩ := t.bytes_take (t.accepted limits data)
    obtain ⟨n, hn⟩ : ∃ n, (t.accepted limits data).length = n + 1 :=
      Nat.exists_eq_succ_of_ne_zero (mt List.length_eq_zero_iff.1 hne)
    refine ⟨n, t.take (t.accepted limits data), ?_, ?_, ?_, fun k hk ↦ ?_, ?_, rfl⟩
    · rw [← Nat.succ_le_iff, ← Nat.add_one, ← hn]
      exact hprefix.length_le
    · have hsome : (t.accepted limits data).isEmpty = false := by simpa using hne
      simp only [sink, StateT.run_bind, StateT.run_get, pure_bind, if_neg hopen, hsome, ← hn]
      rfl
    · rw [← hn, ← List.prefix_iff_eq_take.1 hprefix]
      exact hbytes
    · rw [← Nat.succ_le_iff, ← Nat.add_one, ← hn]
      exact hle k hk
    · rw [room_sinkView, room_sinkView, htaken, hn]
      cases limits.total with
      | none => rfl
      | some total => exact congrArg some (Nat.sub_add_eq _ _ _)
  refuses data t hdata hroom := by
    have hclosed : limits.total.any (· ≤ t.taken) = true :=
      Classical.not_not.1 fun hopen ↦ isOpen_iff.1 hopen hroom
    cases hsilent : limits.silent with
    | false =>
      refine ⟨.error (.other (text "sink closed")), t, ?_, .inr ⟨_, rfl⟩, rfl, rfl⟩
      simp only [sink, StateT.run_bind, StateT.run_get, pure_bind, hclosed, hsilent]
      rfl
    | true =>
      have hnone : t.accepted limits data = [] := by
        obtain ⟨n, htotal, hn⟩ := Option.map_eq_some_iff.1 hroom
        rw [accepted, htotal]
        simp only [hn, List.take_zero]
      refine ⟨.ok 0, t, ?_, .inl rfl, rfl, rfl⟩
      simp only [sink, StateT.run_bind, StateT.run_get, pure_bind, hclosed, hsilent, hnone]
      rfl

/-! ## Dumps -/

/-- **A dump into a sink with limits is cut where its room ends.** Let `a` be what the archive of a
tree without special files holds. A sink without a total has all of the archive in the end. One with
a total has its first bytes, however many it takes at once; the dump succeeds if and only if that is
all of it, and if not, the error says whether the first byte that was not taken is of the contents
of a file, and of which one. -/
theorem dump_cut_by_limits {disk node : FileNode} {root : Bytes}
    (hentry : disk.entry false root = .ok node) (hreadable : node.isReadable root = true)
    (hspecials : node.specials root = []) :
    ∃ a, node.canonical? = some a ∧ (a.markedArchive root).map (·.1) = a.archive ∧
      ∀ limits : SinkLimits, limits.atOnce ≠ some 0 →
        ∃ r t, (disk.dumpTo (sink limits) root).run (start disk []) = (r, t) ∧
          (limits.total = none → r = .ok () ∧ t.bytes = a.archive) ∧
          ∀ n, limits.total = some n →
            t.bytes = a.archive.take n ∧ (r = .ok () ↔ a.archive.length ≤ n) ∧
            ∀ byte file?, (a.markedArchive root)[n]? = some (byte, file?) →
              ∃ e, r = .error (.io (file?.elim .writingArchive .archiving) e) := by
  have hfst := ArchiveNode.map_fst_markedArchive root (node.fill (.link []))
  refine ⟨node.fill (.link []), FileNode.canonical?_eq_some_fill hspecials _, hfst,
    fun limits hpos ↦ ?_⟩
  obtain ⟨r, t, hrun, hwrote⟩ :=
    (accepts_sink hpos).exists_dump hentry hreadable hspecials (.link []) (start disk [])
  have hok := hwrote.eq_ok_iff
  have htook := hwrote.took
  have hbytes : (((node.fill (.link [])).markedArchive root).map IoContext.ofMark).map (·.1)
      = (node.fill (.link [])).archive := by
    rw [List.map_map]
    exact hfst
  rw [hbytes] at hok htook
  refine ⟨r, t, hrun, fun htotal ↦ ?_, fun n htotal ↦ ?_⟩
  · have hroom := (room_start disk limits.total).trans htotal
    refine ⟨hok.2 fun k hk ↦ ?_, htook.held_eq.trans (SinkView.fitting_of_none hroom)⟩
    rw [hroom] at hk
    cases hk
  · have hroom := (room_start disk limits.total).trans htotal
    refine ⟨htook.held_eq.trans (SinkView.fitting_of_some hroom), ?_, fun byte file? hmark ↦ ?_⟩
    · rw [hok, SinkView.Fits, hroom]
      simp
    · refine hwrote.cut n byte _ hroom ?_
      rw [List.getElem?_map, hmark]
      rfl

/-- A directory with a file of three bytes, and an empty directory in front of it. -/
private def filed : FileNode :=
  .directory [([0x66], .file [1, 2, 3] 0o755), ([0x65], .directory [])]

/-- With room up to its second byte the file is being archived, and with room for all three it is
the padding behind them that fails. -/
theorem dump_of_filed :
    let disk := FileNode.directory [([0x6E], filed)]
    let a := ArchiveNode.directory [([0x65], .directory []), ([0x66], .file true [1, 2, 3])]
    (∃ e t, (disk.dumpTo (sink ⟨some 433, some 5, true⟩) [0x2F, 0x6E]).run (start disk []) =
        (.error (.io (.archiving [0x2F, 0x6E, 0x2F, 0x66]) e), t) ∧
      t.bytes = a.archive.take 433) ∧
    ∃ e t, (disk.dumpTo (sink ⟨some 435, some 7, false⟩) [0x2F, 0x6E]).run (start disk []) =
        (.error (.io .writingArchive e), t) ∧
      t.bytes = a.archive.take 435 := by
  intro disk a
  have hentry : disk.entry false [0x2F, 0x6E] = .ok filed := by
    simp +decide [disk, FileNode.entry, FileNode.lookUp, follow, FilePath.names,
      Text.split, Text.splitFrom, FileNode.find?, bind, Except.bind, pure, Except.pure, filed]
  have hspecials : filed.specials [0x2F, 0x6E] = [] := by
    simp +decide [FileNode.specials, FileNode.specialsBelow, Archive.sortEntries, List.mergeSort,
      filed]
  have hfiled : filed.canonical? = some a := by
    simp +decide [FileNode.canonical?, FileNode.canonicalEntries?, Archive.sortEntries,
      List.mergeSort, filed, a]
  obtain ⟨a', hcanonical, -, hruns⟩ := dump_cut_by_limits hentry (by decide) hspecials
  obtain rfl : a = a' := Option.some.inj (hfiled.symm.trans hcanonical)
  obtain ⟨r, t, hrun, -, hcut⟩ := hruns ⟨some 433, some 5, true⟩ (by decide)
  obtain ⟨r', t', hrun', -, hcut'⟩ := hruns ⟨some 435, some 7, false⟩ (by decide)
  obtain ⟨hbytes, -, herror⟩ := hcut 433 rfl
  obtain ⟨hbytes', -, herror'⟩ := hcut' 435 rfl
  obtain ⟨e, rfl⟩ := herror 2 (some [0x2F, 0x6E, 0x2F, 0x66]) (by decide +kernel)
  obtain ⟨e', rfl⟩ := herror' 0 none (by decide +kernel)
  exact ⟨⟨e, t, hrun, hbytes⟩, e', t', hrun', hbytes'⟩

end LiveTree

end NixStore
