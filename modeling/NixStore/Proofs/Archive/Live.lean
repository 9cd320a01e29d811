import NixStore.Archive.Live
import NixStore.Proofs.Archive.Writing

/-!
# Dumps are never malformed

Whenever and however a tree is changed while its archive is written, and whatever the sink takes,
a dump that succeeds has written an archive, and one that fails has not. The changes that are made
at given numbers of bytes, to a tree with a sink that has limits, are one such history: a piece is
taken, then the changes that are due are made in their order, and no other call changes the tree.
-/

namespace NixStore

/-- All lengths in a tree fit into eight bytes, before and after each of some changes. -/
def FileNode.StaysBounded : FileNode → List FileChange → Prop
  | disk, [] => disk.Bounded
  | disk, c :: changes => disk.Bounded ∧ StaysBounded (c.apply disk) changes

theorem FileNode.StaysBounded.bounded {disk : FileNode} {changes : List FileChange}
    (h : disk.StaysBounded changes) : disk.Bounded := by
  cases changes with
  | nil => exact h
  | cons => exact h.1

namespace LiveTree

/-- What is seen of a tree with the changes that are to come. -/
def view : TreeView LiveTree where
  disk := disk
  taken := bytes
  fits t := t.disk.StaysBounded (t.changes.map (·.2)) ∧ ∀ c ∈ t.changes, c.2.Distinct

theorem disk_change (t : LiveTree) (c : FileChange) : (t.change c).disk = c.apply t.disk := by
  rw [change, FileChange.apply]
  cases c.resolve t.disk <;> rfl

theorem bytes_change (t : LiveTree) (c : FileChange) : (t.change c).bytes = t.bytes := by
  rw [change]
  cases c.resolve t.disk <;> rfl

theorem takes_makeDue (t : LiveTree) {changes : List (Nat × FileChange)}
    (hfits : t.disk.StaysBounded (changes.map (·.2))) (hdistinct : ∀ c ∈ changes, c.2.Distinct) :
    view.Takes t [] (t.makeDue changes) := by
  induction changes generalizing t with
  | nil => exact ⟨⟨hfits, hdistinct⟩, .refl _, (List.append_nil _).symm⟩
  | cons due rest ih =>
    obtain ⟨after, c⟩ := due
    obtain ⟨hc, hrest⟩ := List.forall_mem_cons.1 hdistinct
    rw [makeDue]
    split
    · have hmade : view.Takes (t.change c) [] ((t.change c).makeDue rest) :=
        ih _ (by rw [disk_change]; exact hfits.2) hrest
      refine ⟨hmade.fits, ?_, ?_⟩
      · have hbecomes := hmade.becomes
        simp only [view, disk_change] at hbecomes
        exact (FileNode.Becomes.apply hc _).trans hbecomes
      · exact hmade.taken_eq.trans (congrArg (· ++ []) (t.bytes_change c))
    · exact ⟨⟨hfits, hdistinct⟩, .refl _, (List.append_nil _).symm⟩

theorem takes_take (t : LiveTree) (piece : Bytes) (h : view.fits t) :
    view.Takes t piece (t.take piece) := by
  have hmade := takes_makeDue
    { t with pieces := piece :: t.pieces, taken := t.taken + piece.length } h.1 h.2
  refine ⟨hmade.fits, hmade.becomes, hmade.taken_eq.trans ?_⟩
  simp only [view, bytes, List.reverse_cons, List.flatten_append, List.flatten_singleton,
    List.append_nil]

variable {limits : SinkLimits}

theorem accepted_prefix (t : LiveTree) (data : Bytes) : t.accepted limits data <+: data := by
  rw [accepted]
  cases limits.atOnce with
  | none =>
    cases limits.total with
    | none => exact List.prefix_rfl
    | some total => exact List.take_prefix _ _
  | some n =>
    cases limits.total with
    | none => exact List.take_prefix n data
    | some total => exact (List.take_prefix _ _).trans (List.take_prefix n data)

/-- A call of the sink takes the first of the bytes, or fails and takes none. -/
theorem run_write (limits : SinkLimits) (data : Bytes) {t : LiveTree} (h : view.fits t) :
    ∃ r t' piece, ((sink limits).write data).run t = (r, t') ∧ view.Takes t piece t' ∧
      piece <+: data ∧ (r = .ok piece.length ∨ (∃ e, r = .error e) ∧ piece = []) := by
  by_cases hclosed : (limits.total.any (· ≤ t.taken) && !limits.silent) = true
  · refine ⟨.error (.other (text "sink closed")), t, [], ?_, .refl h, List.nil_prefix,
      .inr ⟨⟨_, rfl⟩, rfl⟩⟩
    simp only [sink, StateT.run_bind, StateT.run_get, pure_bind, if_pos hclosed]
    rfl
  · by_cases hempty : (t.accepted limits data).isEmpty = true
    · refine ⟨.ok 0, t, [], ?_, .refl h, List.nil_prefix, .inl rfl⟩
      simp only [sink, StateT.run_bind, StateT.run_get, pure_bind, if_neg hclosed,
        List.isEmpty_iff.1 hempty]
      rfl
    · refine ⟨_, _, _, ?_, t.takes_take (t.accepted limits data) h, t.accepted_prefix data,
        .inl rfl⟩
      simp only [sink, StateT.run_bind, StateT.run_get, pure_bind, if_neg hclosed, hempty]
      rfl

/-- All of the bytes are taken, or the first of them and there is an error. -/
theorem run_deliver (data : Bytes) {t : LiveTree} (h : view.fits t) :
    ∃ r t' piece, ((sink limits).deliver .incomplete data).run t = (r, t') ∧
      view.Takes t piece t' ∧ piece <+: data ∧ (r = .ok () ↔ piece = data) := by
  induction data using Sink.deliver.induct generalizing t with
  | case1 =>
    rw [Sink.deliver]
    exact ⟨.ok (), t, [], rfl, .refl h, List.nil_prefix, fun _ ↦ rfl, fun _ ↦ rfl⟩
  | case2 b rest ih =>
    obtain ⟨r, t₁, piece, hwrite, htakes, ⟨more, hmore⟩, hr⟩ :=
      run_write limits (b :: rest) h
    rw [Sink.deliver, StateT.run_bind, hwrite]
    cases piece with
    | nil =>
      rcases hr with rfl | ⟨⟨e, rfl⟩, -⟩
      · exact ⟨.error .incomplete, t₁, [], rfl, htakes, List.nil_prefix, by simp⟩
      · exact ⟨.error e, t₁, [], rfl, htakes, List.nil_prefix, by simp⟩
    | cons b' piece =>
      obtain rfl : r = .ok (b' :: piece).length :=
        hr.resolve_right fun hnone ↦ List.cons_ne_nil _ _ hnone.2
      have hrest : piece ++ more = rest := (List.cons.inj hmore).2
      have hdrop : rest.drop piece.length = more := by
        rw [← hrest, List.drop_left]
      obtain ⟨r, t₂, piece', hrun, htakes', hprefix, hr⟩ := ih piece.length htakes.fits
      refine ⟨r, t₂, b' :: piece ++ piece', hrun, htakes.trans htakes', ?_, ?_⟩
      · rw [hdrop] at hprefix
        rw [← hmore]
        exact (List.prefix_append_right_inj _).2 hprefix
      · rw [hr, ← hmore, hdrop, List.append_cancel_left_eq]

theorem run_readOpened (n : Nat) {t : LiveTree} (h : view.fits t) :
    ∃ r t', (readOpened n).run t = (r, t') ∧ (∀ piece, r = .ok piece → piece.length ≤ n) ∧
      view.Takes t [] t' := by
  simp only [readOpened, StateT.run_bind, StateT.run_get, pure_bind]
  split
  · exact ⟨.ok [], t, rfl, fun _ heq ↦ Except.ok.inj heq ▸ Nat.zero_le n, .refl h⟩
  · next file hopened =>
    split
    · exact ⟨_, t, rfl, nofun, .refl h⟩
    · next data hdata =>
      refine ⟨.ok ((data.drop file.position).take n), _, rfl, ?_, h, .refl _,
        (List.append_nil _).symm⟩
      rintro _ ⟨⟩
      exact List.length_take_le n _

/-- Changes at given numbers of bytes, and sinks with limits, are changes and sinks of any kind. -/
theorem describes_host (limits : SinkLimits) : view.Describes (host limits) where
  bounded _ h := h.1.bounded
  inspect _ t h := ⟨t, t, rfl, .refl h, .refl h⟩
  list _ t h := ⟨t, t, rfl, .refl h, .refl h⟩
  readLink _ t h := ⟨t, t, rfl, .refl h, .refl h⟩
  openFile path t h := by
    simp only [host, StateT.run_bind, StateT.run_get, pure_bind]
    cases t.disk.openPath path with
    | error e => exact ⟨_, t, rfl, .refl h⟩
    | ok found =>
      exact ⟨_, { t with opened := some ⟨found.1, found.2, 0, true⟩ }, rfl, h, .refl _,
        (List.append_nil _).symm⟩
  read _ n t h := by
    obtain ⟨r, t', hrun, hpiece, htakes⟩ := run_readOpened n h
    refine ⟨r, (), t', ?_, hpiece, htakes⟩
    simp only [host, StateT.run_bind, hrun]
    rfl
  write data t h := run_deliver data h

end LiveTree

namespace TreeView

open ArchiveNode

variable {σ η : Type} {view : TreeView σ} {host : ArchiveHost (StateM σ) η}

/-- **A dump is never malformed.** Whatever is changed meanwhile, a dump ends. If it succeeds, the
sink has taken a whole archive of some tree; if it fails, the bytes that were taken are the
beginning of one and not an archive. -/
theorem Describes.dump_never_malformed (h : view.Describes host) (path : Bytes) {s : σ}
    (hs : view.Sound s) : ∃ r s' out, (host.dump path).run.run s = (r, s') ∧
      view.taken s' = view.taken s ++ out ∧
      (r = .ok () → ∃ node : ArchiveNode, node.WellFormed ∧ out = node.archive) ∧
      ∀ e, r = .error e → Incomplete out ∧
        ∀ node : ArchiveNode, node.WellFormed → out ≠ node.archive := by
  -- what is written does not depend on what is told of reading
  obtain ⟨r, s', out, hrun, hok, herror⟩ := (ReadView.records_untold h).dump path s
    ⟨hs, (List.append_nil (view.taken s)).symm, trivial⟩
  cases r with
  | ok _ =>
    obtain ⟨hstage, node, hnode, rfl⟩ := hok () rfl
    refine ⟨_, s', _, hrun, hstage.taken_eq, fun _ ↦ ⟨node, hnode, ?_⟩, fun _ he ↦ by cases he⟩
    exact map_fst_markedArchive path node
  | error e =>
    have hbroken := herror e rfl
    have hout := hbroken.continues.incomplete
    exact ⟨_, s', _, hrun, hbroken.taken_eq, fun hok ↦ (by cases hok),
      fun _ _ ↦ ⟨hout, fun _ hnode ↦ hout.ne_archive hnode⟩⟩

/-- A file that becomes shorter after its length was written. -/
private def shrinking : LiveTree :=
  .start (.directory [([0x66], .file [1, 2] 0o644)]) [(96, .truncate [0x2F, 0x66] 1)]

theorem dump_of_shrinking : LiveTree.view.Sound shrinking ∧
    ∃ r t out, shrinking.dump ⟨none, some 7, false⟩ [0x2F, 0x66] = (r, t) ∧ t.bytes = [] ++ out ∧
      (r = .ok () → ∃ node : ArchiveNode, node.WellFormed ∧ out = node.archive) ∧
      ∀ e, r = .error e → Incomplete out ∧
        ∀ node : ArchiveNode, node.WellFormed → out ≠ node.archive := by
  have hone : ∀ {holds : FileNode → Prop} {data : Bytes} {mode : Nat},
      holds (.directory [([0x66], .file data mode)]) → holds (.file data mode) →
      FileNode.Everywhere holds (.directory [([0x66], .file data mode)]) := fun hdir hfile ↦
    FileNode.everywhere_directory.2 ⟨hdir, List.forall_mem_singleton.2 (.intro hfile nofun)⟩
  have hname : ∀ data mode, (FileNode.directory [([0x66], .file data mode)]).LengthsFit :=
    fun _ _ ↦ List.forall_mem_singleton.2 (show 1 < Archive.sizeLimit by decide)
  have happly : (FileChange.truncate [0x2F, 0x66] 1).apply shrinking.disk
      = .directory [([0x66], .file [1] 0o644)] := by
    simp +decide [shrinking, LiveTree.start, FileChange.apply, FileChange.resolve,
      FileNode.placeOfFile, FileNode.lookUp, follow, FilePath.names, Text.split, Text.splitFrom,
      FileNode.find?, Trail.place, FileNode.alterAt, FileNode.alterEntry, FileNode.alterData,
      FileNode.resize, bind, Except.bind, pure, Except.pure]
  have hsound : LiveTree.view.Sound shrinking := by
    refine ⟨⟨⟨hone (hname _ _) ?_, ?_⟩, ?_⟩, hone ?_ trivial⟩
    · exact (by decide : 2 < Archive.sizeLimit)
    · rw [happly]
      exact hone (hname _ _) (by decide : 1 < Archive.sizeLimit)
    · exact List.forall_mem_singleton.2 trivial
    · exact List.nodup_cons.2 ⟨List.not_mem_nil, List.nodup_nil⟩
  exact ⟨hsound, (LiveTree.describes_host _).dump_never_malformed _ hsound⟩

end TreeView

end NixStore
