import NixStore.Archive.Watched
import NixStore.Proofs.Archive.Live
import NixStore.Proofs.FileTree.Places

/-!
# Contents are those of the files that were opened

However a tree is changed between the calls of a writer, the file that is open is the one that its
path led to when it was opened: its data is what that file has, or had when its entry was last seen.
So every byte of contents in an archive is of such a file. Listing and inspecting do not follow
links, but opening does, so that the file need not be the one at the path itself: where a link was
put in place of a file in between, it is the one that the link leads to.
-/

namespace NixStore

open Archive ArchiveNode

/-! ## Files that are open -/

/-- An open file is the one that was opened, in a tree as it is now. -/
structure Opening.Tracks (o : Opening) (file : LiveFile) (now : FileNode) : Prop where
  exists_trail : ∃ trail, o.disk.lookUp true o.path = .ok trail ∧ file.place = trail.place
  present_eq : (o.disk.lastSight file.place o.since).present = file.attached
  disk_eq : file.attached = true → (o.disk.lastSight file.place o.since).disk = now
  exists_mode : ∀ data, file.data = .ok data → data ≠ [] → ∃ mode,
    (o.disk.lastSight file.place o.since).disk.at? file.place = some (.file data mode)

namespace FileNode

variable {disk : FileNode} {path : Bytes}

theorem lastSight_append (place : List Bytes) (disk : FileNode) (changes : List FileChange)
    (c : FileChange) :
    disk.lastSight place (changes ++ [c]) = (disk.lastSight place changes).after place c :=
  List.foldl_append ..

theorem tracks_of_openPath {place : List Bytes} {data : Except OsError Bytes}
    (h : disk.openPath path = .ok (place, data)) :
    Opening.Tracks ⟨path, disk, []⟩ ⟨place, data, 0, true⟩ disk := by
  rw [openPath] at h
  cases hlook : disk.lookUp true path with
  | error e =>
    rw [hlook] at h
    cases h
  | ok trail =>
    have hplace := (Trail.Leads.of_lookUp hlook).at?_place
    rw [hlook] at h
    simp only [bind, Except.bind, pure, Except.pure] at h
    rw [← Trail.entry] at h
    cases hentry : trail.entry disk with
    | file bytes mode =>
      rw [hentry] at h hplace
      cases h
      refine ⟨⟨trail, hlook, rfl⟩, rfl, fun _ ↦ rfl, fun _ heq _ ↦ ?_⟩
      cases heq
      exact ⟨mode, hplace⟩
    | directory entries =>
      rw [hentry] at h
      cases h
      exact ⟨⟨trail, hlook, rfl⟩, rfl, fun _ ↦ rfl, fun _ heq _ ↦ by cases heq⟩
    | fifo | link =>
      rw [hentry] at h
      cases h
      refine ⟨⟨trail, hlook, rfl⟩, rfl, fun _ ↦ rfl, fun _ heq hne ↦ ?_⟩
      cases heq
      exact absurd rfl hne
    | socket =>
      rw [hentry] at h
      cases h

end FileNode

namespace Opening.Tracks

variable {o : Opening} {place : List Bytes} {data : Except OsError Bytes} {position : Nat}
  {now : FileNode} {c : FileChange}

/-- The entry of an open file is not displaced, and is what the file is from now on. -/
theorem keep (h : o.Tracks ⟨place, data, position, true⟩ now)
    (hkeep : c.displaces place now = false) {data' : Except OsError Bytes}
    (hdata : ∀ bytes, data' = .ok bytes → bytes ≠ [] →
      ∃ mode, (c.apply now).at? place = some (.file bytes mode)) :
    Tracks { o with since := o.since ++ [c] } ⟨place, data', position, true⟩ (c.apply now) := by
  obtain ⟨htrail, hpresent, hdisk, -⟩ := h
  have hsight : o.disk.lastSight place (o.since ++ [c]) = ⟨c.apply now, true⟩ := by
    rw [FileNode.lastSight_append, Sighting.after, if_pos hpresent, hdisk rfl,
      if_neg (Bool.eq_false_iff.1 hkeep), hpresent]
  refine ⟨htrail, congrArg Sighting.present hsight, fun _ ↦ congrArg Sighting.disk hsight,
    fun bytes hbytes hne ↦ ?_⟩
  obtain ⟨mode, hmode⟩ := hdata bytes hbytes hne
  exact ⟨mode, (congrArg (·.disk.at? place) hsight).trans hmode⟩

/-- The entry of an open file goes away, and the file stays as it was. -/
theorem detach (h : o.Tracks ⟨place, data, position, true⟩ now)
    (hgone : c.displaces place now = true) (now' : FileNode) :
    Tracks { o with since := o.since ++ [c] } ⟨place, data, position, false⟩ now' := by
  obtain ⟨htrail, hpresent, hdisk, hmode⟩ := h
  have hsight : o.disk.lastSight place (o.since ++ [c])
      = ⟨(o.disk.lastSight place o.since).disk, false⟩ := by
    rw [FileNode.lastSight_append, Sighting.after, if_pos hpresent, hdisk rfl, if_pos hgone]
  refine ⟨htrail, congrArg Sighting.present hsight, (absurd · Bool.false_ne_true),
    fun bytes hbytes hne ↦ ?_⟩
  obtain ⟨mode, hmode⟩ := hmode bytes hbytes hne
  exact ⟨mode, (congrArg (·.disk.at? place) hsight).trans hmode⟩

/-- What happens to a tree is nothing to a file whose entry is gone. -/
theorem gone (h : o.Tracks ⟨place, data, position, false⟩ now) (now' : FileNode) :
    Tracks { o with since := o.since ++ [c] } ⟨place, data, position, false⟩ now' := by
  obtain ⟨htrail, hpresent, -, hmode⟩ := h
  have hsight : o.disk.lastSight place (o.since ++ [c]) = o.disk.lastSight place o.since := by
    rw [FileNode.lastSight_append, Sighting.after, if_neg (Bool.eq_false_iff.1 hpresent)]
  refine ⟨htrail, (congrArg Sighting.present hsight).trans hpresent,
    (absurd · Bool.false_ne_true), fun bytes hbytes hne ↦ ?_⟩
  obtain ⟨mode, hmode⟩ := hmode bytes hbytes hne
  exact ⟨mode, (congrArg (·.disk.at? place) hsight).trans hmode⟩

theorem at?_now (h : o.Tracks ⟨place, data, position, true⟩ now) {bytes : Bytes}
    (hbytes : data = .ok bytes) (hne : bytes ≠ []) :
    ∃ mode, now.at? place = some (.file bytes mode) := by
  obtain ⟨mode, hmode⟩ := h.exists_mode bytes hbytes hne
  rw [h.disk_eq rfl] at hmode
  exact ⟨mode, hmode⟩

variable {file : LiveFile}

/-- An open file is the same one after a change that cannot be made. -/
theorem of_error (h : o.Tracks file now) {e : OsError} (hresolve : c.resolve now = .error e) :
    Tracks { o with since := o.since ++ [c] } file now := by
  obtain ⟨place, data, position, attached⟩ := file
  cases attached with
  | false => exact h.gone now
  | true =>
    have happly : c.apply now = now := by simp only [FileChange.apply, hresolve]
    have hkeep : c.displaces place now = false := by
      simp only [FileChange.displaces, hresolve, Bool.and_false]
    have hkept : Tracks { o with since := o.since ++ [c] } ⟨place, data, position, true⟩
        (c.apply now) :=
      h.keep hkeep fun bytes hbytes hne ↦ happly.symm ▸ h.at?_now hbytes hne
    rwa [happly] at hkept

theorem afterChange (h : o.Tracks file now) {changed : List Bytes}
    {f : Option FileNode → Option FileNode} (hresolve : c.resolve now = .ok (changed, f)) :
    Tracks { o with since := o.since ++ [c] } (file.afterChange c changed (c.apply now))
      (c.apply now) := by
  obtain ⟨place, data, position, attached⟩ := file
  cases attached with
  | false => exact h.gone _
  | true =>
    have hdisplaces : c.displaces place now = (c.replaces && changed.isPrefixOf place) := by
      simp only [FileChange.displaces, hresolve]
    simp only [LiveFile.afterChange, Bool.not_true, Bool.false_eq_true, if_false]
    cases hc : c.replaces with
    | true =>
      rw [hc, Bool.true_and] at hdisplaces
      rw [if_pos rfl]
      cases hprefix : changed.isPrefixOf place with
      | true => exact h.detach (hdisplaces.trans hprefix) _
      | false =>
        have hkeep := hdisplaces.trans hprefix
        refine h.keep hkeep fun bytes hbytes hne ↦ ?_
        obtain ⟨mode, hmode⟩ := h.at?_now hbytes hne
        rcases FileChange.alike_apply hc hkeep with heq | ⟨_, _, -, hdirectory⟩
        · exact ⟨mode, heq.trans hmode⟩
        · rw [hmode] at hdirectory
          cases hdirectory
    | false =>
      rw [hc, Bool.false_and] at hdisplaces
      rw [if_neg Bool.false_ne_true]
      split
      · next bytes' mode hfile =>
        refine h.keep hdisplaces fun bytes hbytes _ ↦ ?_
        cases hbytes
        exact ⟨mode, hfile⟩
      · next hother =>
        refine h.keep hdisplaces fun bytes hbytes hne ↦ ?_
        -- it was a file, and a change of data leaves it one
        obtain ⟨mode, hmode⟩ := h.at?_now hbytes hne
        have hkind := FileChange.map_kind_apply hdisplaces
        rw [hmode] at hkind
        obtain ⟨node, hnode, hfile⟩ := Option.map_eq_some_iff.1 hkind
        cases node with
        | file bytes' mode' => exact absurd hnode (hother bytes' mode')
        | _ => cases hfile

/-- Where in an open file is read does not matter for which file it is. -/
theorem seek (h : o.Tracks file now) (position' : Nat) :
    o.Tracks { file with position := position' } now := by
  obtain ⟨htrail, hpresent, hdisk, hmode⟩ := h
  exact ⟨htrail, hpresent, hdisk, hmode⟩

theorem comesFrom (h : o.Tracks file now) {data piece : Bytes} (hdata : file.data = .ok data)
    (hpart : piece <:+: data) (hne : piece ≠ []) : ∃ trail, Reading.ComesFrom ⟨o, piece⟩ trail := by
  obtain ⟨trail, hlook, hplace⟩ := h.exists_trail
  have hbytes : data ≠ [] := by
    rintro rfl
    exact hne (List.infix_nil.1 hpart)
  obtain ⟨mode, hmode⟩ := h.exists_mode data hdata hbytes
  rw [hplace] at hmode
  exact ⟨trail, hlook, FileNode.exists_file_of_lastSight hmode, data, mode, hmode, hpart⟩

end Opening.Tracks

namespace LiveTree

variable {limits : SinkLimits} {t t' t'' : LiveTree}

/-- Something was written, and nothing else has happened. -/
structure Unmoved (t t' : LiveTree) : Prop where
  disk_eq : t'.disk = t.disk
  opened_eq : t'.opened = t.opened
  changes_eq : t'.changes = []

theorem Unmoved.trans (h : t.Unmoved t') (h' : t'.Unmoved t'') : t.Unmoved t'' :=
  ⟨h'.disk_eq.trans h.disk_eq, h'.opened_eq.trans h.opened_eq, h'.changes_eq⟩

theorem unmoved_write (limits : SinkLimits) (h : t.changes = []) (data : Bytes) :
    t.Unmoved (((sink limits).write data).run t).2 := by
  by_cases hclosed : (limits.total.any (· ≤ t.taken) && !limits.silent) = true
  · simp only [sink, StateT.run_bind, StateT.run_get, pure_bind, if_pos hclosed]
    exact ⟨rfl, rfl, h⟩
  · by_cases hempty : (t.accepted limits data).isEmpty = true
    · simp only [sink, StateT.run_bind, StateT.run_get, pure_bind, if_neg hclosed, hempty]
      exact ⟨rfl, rfl, h⟩
    · have htake : ∀ piece, t.Unmoved (t.take piece) := fun piece ↦ by
        rw [take, h]
        exact ⟨rfl, rfl, rfl⟩
      simp only [sink, StateT.run_bind, StateT.run_get, pure_bind, if_neg hclosed, hempty]
      exact htake _

theorem unmoved_deliver (limits : SinkLimits) (h : t.changes = []) (data : Bytes) :
    t.Unmoved (((sink limits).deliver .incomplete data).run t).2 := by
  induction data using Sink.deliver.induct generalizing t with
  | case1 =>
    rw [Sink.deliver]
    exact ⟨rfl, rfl, h⟩
  | case2 b rest ih =>
    have hwrite := unmoved_write limits h (b :: rest)
    obtain ⟨r, t', hrun⟩ : ∃ r t', ((sink limits).write (b :: rest)).run t = (r, t') :=
      ⟨_, _, rfl⟩
    rw [hrun] at hwrite
    rw [Sink.deliver, StateT.run_bind, hrun]
    rcases r with e | _ | n
    · exact hwrite
    · exact hwrite
    · exact hwrite.trans (ih n hwrite.changes_eq)

theorem run_readOpened_cases (t : LiveTree) (n : Nat) :
    ((∀ b piece, ((readOpened n).run t).1 ≠ .ok (b :: piece)) ∧ ((readOpened n).run t).2 = t) ∨
      ∃ file data b piece, t.opened = some file ∧ file.data = .ok data ∧ b :: piece <:+: data ∧
        (b :: piece).length ≤ n ∧ (readOpened n).run t = (.ok (b :: piece), { t with
          opened := some { file with position := file.position + (b :: piece).length } }) := by
  simp only [readOpened, StateT.run_bind, StateT.run_get, pure_bind]
  split
  · exact .inl ⟨fun _ _ h ↦ (by cases h), rfl⟩
  · next file hopened =>
    split
    · exact .inl ⟨fun _ _ h ↦ (by cases h), rfl⟩
    · next data hdata =>
      have hpart : (data.drop file.position).take n <:+: data :=
        (List.take_prefix n _).isInfix.trans (List.drop_suffix _ data).isInfix
      have hlength : ((data.drop file.position).take n).length ≤ n := List.length_take_le n _
      cases hpiece : (data.drop file.position).take n with
      | nil =>
        refine .inl ⟨fun _ _ h ↦ (by cases h), ?_⟩
        change { t with opened := some file } = t
        rw [← hopened]
      | cons b piece =>
        rw [hpiece] at hpart hlength
        exact .inr ⟨file, data, b, piece, hopened, hdata, hpart, hlength, rfl⟩

end LiveTree

/-! ## Calls to a tree that is watched -/

namespace WatchedTree

/-- What holds all along: lengths fit and names are different, now and after the changes to come;
the open file is the one that was opened last, and what was read comes from the files that were
opened. -/
structure Valid (w : WatchedTree) : Prop where
  bounded : w.tree.disk.StaysBounded w.coming.flatten
  distinct : ∀ c ∈ w.coming.flatten, c.Distinct
  changes_eq : w.tree.changes = []
  tracks : ∀ file, w.tree.opened = some file →
    ∃ o, w.opening = some o ∧ o.Tracks file w.tree.disk
  comesFrom : ∀ r ∈ w.readings, ∃ trail, r.ComesFrom trail

/-- So much was read, and the file that was opened last is the one at a path, if that is known. -/
structure Tells (file? : Option Bytes) (marked : Marks) (w : WatchedTree) : Prop where
  read_eq : w.read = marked
  opened : ∀ path, file? = some path → w.opening.map (·.path) = some path

/-- What is seen of a tree that is watched. -/
def view : ReadView WatchedTree where
  disk w := w.tree.disk
  taken w := w.tree.bytes
  fits := Valid
  tells := Tells

variable {w : WatchedTree} {limits : SinkLimits}

theorem Valid.change {c : FileChange} {batch : List FileChange}
    (h : Valid { w with coming := (c :: batch) :: w.coming }) :
    Valid { w.change c with coming := batch :: (w.change c).coming } := by
  obtain ⟨hbounded, hdistinct, hchanges, htracks, hread⟩ := h
  have hdisk : (w.tree.change c).disk = c.apply w.tree.disk := w.tree.disk_change c
  refine ⟨hdisk ▸ hbounded.2, (List.forall_mem_cons.1 hdistinct).2, ?_, fun file hfile ↦ ?_, hread⟩
  · change (w.tree.change c).changes = []
    rw [LiveTree.change]
    cases c.resolve w.tree.disk <;> exact hchanges
  · change (w.tree.change c).opened = some file at hfile
    change ∃ o : Opening, (w.opening.map fun o ↦ { o with since := o.since ++ [c] }) = some o ∧
      o.Tracks file (w.tree.change c).disk
    rw [hdisk]
    rw [LiveTree.change] at hfile
    cases hresolve : c.resolve w.tree.disk with
    | error e =>
      rw [hresolve] at hfile
      obtain ⟨o, ho, htracked⟩ := htracks file hfile
      refine ⟨_, congrArg (Option.map _) ho, ?_⟩
      have happly : c.apply w.tree.disk = w.tree.disk := by
        simp only [FileChange.apply, hresolve]
      rw [happly]
      exact htracked.of_error hresolve
    | ok found =>
      rw [hresolve] at hfile
      obtain ⟨before, hbefore, rfl⟩ := Option.map_eq_some_iff.1 hfile
      obtain ⟨o, ho, htracked⟩ := htracks before hbefore
      exact ⟨_, congrArg (Option.map _) ho, htracked.afterChange hresolve⟩

theorem takes_foldl_change {batch : List FileChange}
    (h : Valid { w with coming := batch :: w.coming }) :
    view.Takes w [] (batch.foldl WatchedTree.change w) := by
  induction batch generalizing w with
  | nil => exact .refl ⟨h.bounded, h.distinct, h.changes_eq, h.tracks, h.comesFrom⟩
  | cons c batch ih =>
    have hc : c.Distinct := h.distinct c List.mem_cons_self
    have hrest := ih h.change
    refine ⟨hrest.fits, ?_, hrest.taken_eq.trans ?_⟩
    · have hone := FileNode.Becomes.apply hc w.tree.disk
      rw [← w.tree.disk_change c] at hone
      exact hone.trans hrest.becomes
    · exact congrArg (· ++ []) (w.tree.bytes_change c)

theorem takes_advance (h : Valid w) : view.Takes w [] w.advance := by
  rw [advance]
  cases hcoming : w.coming with
  | nil => exact .refl h
  | cons batch coming =>
    obtain ⟨hbounded, hdistinct, hchanges, htracks, hread⟩ := h
    rw [hcoming] at hbounded hdistinct
    have htakes : view.Takes { w with coming := coming } []
        (batch.foldl WatchedTree.change { w with coming := coming }) :=
      takes_foldl_change ⟨hbounded, hdistinct, hchanges, htracks, hread⟩
    exact ⟨htakes.fits, htakes.becomes, htakes.taken_eq⟩

theorem Tells.foldl_change {file? : Option Bytes} {marked : Marks} (batch : List FileChange)
    (h : Tells file? marked w) : Tells file? marked (batch.foldl WatchedTree.change w) := by
  induction batch generalizing w with
  | nil => exact h
  | cons c batch ih =>
    refine ih ⟨h.read_eq, fun path hpath ↦ ?_⟩
    rw [← h.opened path hpath]
    exact Option.map_map ..

theorem Tells.advance {file? : Option Bytes} {marked : Marks} (h : Tells file? marked w) :
    Tells file? marked w.advance := by
  rw [WatchedTree.advance]
  cases w.coming with
  | nil => exact h
  | cons batch coming =>
    exact Tells.foldl_change batch (w := { w with coming := coming }) ⟨h.read_eq, h.opened⟩

theorem run_call {α : Type} (x : StateM LiveTree α) (w : WatchedTree) :
    (call x).run w
      = ((x.run w.advance.tree).1, { w.advance with tree := (x.run w.advance.tree).2 }) := rfl

theorem run_openFile (limits : SinkLimits) (path : Bytes) (w : WatchedTree) :
    ((host limits).openFile path).run w = match w.advance.tree.disk.openPath path with
      | .error e => (.error e, w.advance)
      | .ok (place, data) => (.ok (), { w.advance with
          tree := { w.advance.tree with opened := some ⟨place, data, 0, true⟩ }
          opening := some ⟨path, w.advance.tree.disk, []⟩ }) := by
  simp only [host, StateT.run_bind, run_call, LiveTree.host, StateT.run_get, pure_bind]
  cases w.advance.tree.disk.openPath path <;> rfl

/-- A piece that was read is of the open file, and is recorded; otherwise nothing happens. -/
theorem run_read_cases (limits : SinkLimits) (n : Nat) (w : WatchedTree) :
    (∃ r, ((host limits).read () n).run w = ((r, ()), w.advance) ∧
        ∀ b piece, r ≠ .ok (b :: piece)) ∨
      ∃ file data b piece, w.advance.tree.opened = some file ∧ file.data = .ok data ∧
        b :: piece <:+: data ∧ (b :: piece).length ≤ n ∧
        ((host limits).read () n).run w
          = ((.ok (b :: piece), ()), record (b :: piece) { w.advance with
              tree := { w.advance.tree with
                opened := some { file with position := file.position + (b :: piece).length } } })
    := by
  have hread : ((LiveTree.host limits).read () n).run w.advance.tree
      = ((((LiveTree.readOpened n).run w.advance.tree).1, ()),
          ((LiveTree.readOpened n).run w.advance.tree).2) := rfl
  rcases w.advance.tree.run_readOpened_cases n with ⟨hnone, hsame⟩ |
    ⟨file, data, b, piece, hopened, hdata, hpart, hlength, hrun⟩
  · refine .inl ⟨((LiveTree.readOpened n).run w.advance.tree).1, ?_, hnone⟩
    simp only [host, StateT.run_bind, run_call, hread, hsame]
    rcases hr : ((LiveTree.readOpened n).run w.advance.tree).1 with e | _ | ⟨b, piece⟩
    · rfl
    · rfl
    · exact absurd hr (hnone b piece)
  · refine .inr ⟨file, data, b, piece, hopened, hdata, hpart, hlength, ?_⟩
    simp only [host, StateT.run_bind, run_call, hread, hrun]
    rfl

theorem describes_host (limits : SinkLimits) : view.Describes (host limits) where
  bounded _ h := h.bounded.bounded
  inspect _ w h := ⟨w.advance, w.advance, rfl, takes_advance h, .refl (takes_advance h).fits⟩
  list _ w h := ⟨w.advance, w.advance, rfl, takes_advance h, .refl (takes_advance h).fits⟩
  readLink _ w h := ⟨w.advance, w.advance, rfl, takes_advance h, .refl (takes_advance h).fits⟩
  openFile path w h := by
    have hadvance := takes_advance h
    obtain ⟨hbounded, hdistinct, hchanges, -, hread⟩ := hadvance.fits
    rw [run_openFile]
    cases hopen : w.advance.tree.disk.openPath path with
    | error e => exact ⟨_, _, rfl, hadvance⟩
    | ok found =>
      obtain ⟨place, data⟩ := found
      refine ⟨_, _, rfl, ⟨hbounded, hdistinct, hchanges, ?_, hread⟩, hadvance.becomes,
        hadvance.taken_eq⟩
      rintro file ⟨⟩
      exact ⟨_, rfl, FileNode.tracks_of_openPath hopen⟩
  read _ n w h := by
    have hadvance := takes_advance h
    obtain ⟨hbounded, hdistinct, hchanges, htracks, hread⟩ := hadvance.fits
    rcases run_read_cases limits n w with ⟨r, hrun, hnone⟩ |
      ⟨file, data, b, piece, hopened, hdata, hpart, hlength, hrun⟩
    · refine ⟨r, (), w.advance, hrun, fun piece hpiece ↦ ?_, hadvance⟩
      cases piece with
      | nil => exact Nat.zero_le n
      | cons b piece => exact absurd hpiece (hnone b piece)
    · obtain ⟨o, ho, htracked⟩ := htracks file hopened
      refine ⟨.ok (b :: piece), (), _, hrun, fun _ heq ↦ Except.ok.inj heq ▸ hlength, ?_⟩
      rw [record, ho]
      refine ⟨⟨hbounded, hdistinct, hchanges, ?_, ?_⟩, hadvance.becomes, hadvance.taken_eq⟩
      · rintro file' ⟨⟩
        exact ⟨o, rfl, htracked.seek _⟩
      · have hcomes := htracked.comesFrom hdata hpart (List.cons_ne_nil b piece)
        exact List.forall_mem_cons.2 ⟨hcomes, hread⟩
  write data w h := by
    have hadvance := takes_advance h
    obtain ⟨hbounded, hdistinct, hchanges, htracks, hread⟩ := hadvance.fits
    have hfits : LiveTree.view.fits w.advance.tree := by
      refine ⟨?_, ?_⟩
      · rw [hchanges]
        exact hbounded.bounded
      · rw [hchanges]
        exact nofun
    obtain ⟨r, t', piece, hrun, htakes, hprefix, hr⟩ :=
      (LiveTree.describes_host limits).write data w.advance.tree hfits
    have hunmoved : w.advance.tree.Unmoved
        (((LiveTree.host limits).write data).run w.advance.tree).2 :=
      LiveTree.unmoved_deliver limits hchanges data
    rw [hrun] at hunmoved
    obtain ⟨hdisk, hopened, hchanges'⟩ := hunmoved
    refine ⟨r, { w.advance with tree := t' }, piece, ?_,
      ⟨⟨?_, hdistinct, hchanges', ?_, hread⟩, ?_, ?_⟩, hprefix, hr⟩
    · exact (run_call _ w).trans (by rw [hrun])
    · exact hdisk.symm ▸ hbounded
    · intro file hfile
      rw [hopened] at hfile
      exact hdisk.symm ▸ htracks file hfile
    · exact hadvance.becomes.trans htakes.becomes
    · exact htakes.taken_eq.trans (congrArg (· ++ piece) (hadvance.taken_eq.trans
        (List.append_nil _)))

/-- Two files. -/
private def pair : FileNode :=
  .directory [([0x66], .file [1, 2] 0o644), ([0x67], .file [7, 8] 0o644)]

private def replaced : FileNode :=
  .directory [([0x66], .link [0x67]), ([0x67], .file [7, 8] 0o644)]

/-- What was written when the file is opened. -/
private def headed : LiveTree := ((LiveTree.start pair []).take magic).take (openFile false 2)

/-- So much of the second file was read. -/
private def reading (position : Nat) : LiveTree :=
  { headed with disk := replaced, opened := some ⟨[[0x67]], .ok [7, 8], position, true⟩ }

end WatchedTree

end NixStore
