import NixStore.Proofs.Archive.Changing
import NixStore.Proofs.Archive.Partial
import NixStore.Proofs.Archive.Transcript

/-!
# Writing the archive of a tree that changes

What is written of a directory depends on one listing only, and of a file on one size, since no more
bytes than that are copied and the rest is written only after all of them. So the invariant speaks
of the bytes that were written and not of the tree. They are to be continued whenever the writer may
break off, and whatever is written next keeps them the beginning of an archive.

Every byte of contents that is written was read before, in the same order and for the file that was
opened. While a piece was read and is not written yet, the bytes that were read are ahead by that
piece. What this says of a state of the host is left open: a view tells in each state what it likes
of the file that is open and of the bytes that were read, as long as every call keeps it. A view
that tells nothing leaves what is said of the bytes that were written.

The directories that are open are told by their depths and may be more than those around the entry
that comes next: the writer stands in a directory when closing those below it would lead there.
-/

namespace NixStore

open Archive ArchiveNode

variable {σ η α β : Type}

/-! ## Runs of writers -/

namespace ArchiveHost

variable {f : α → ExceptT EngineError (StateM σ) β} {s s' : σ}

theorem run_bind_of_ok {x : ExceptT EngineError (StateM σ) α} {a : α}
    (h : x.run.run s = (.ok a, s')) : (x >>= f).run.run s = (f a).run.run s' := by
  rw [ExceptT.run_bind, StateT.run_bind, h]
  rfl

theorem run_bind_of_error {x : ExceptT EngineError (StateM σ) α} {e : EngineError}
    (h : x.run.run s = (.error e, s')) : (x >>= f).run.run s = (.error e, s') := by
  rw [ExceptT.run_bind, StateT.run_bind, h]
  rfl

theorem run_look_bind {look : StateM σ α} {a : α} (h : look.run s = (a, s')) :
    (liftM look >>= f).run.run s = (f a).run.run s' := by
  rw [ExceptT.run_bind, ExceptT.run_liftM, StateT.run_bind, StateT.run_map, h]
  rfl

theorem run_put {host : ArchiveHost (StateM σ) η} {context : IoContext} {bs : Bytes}
    {r : Except IoError Unit} (h : (host.write bs).run s = (r, s')) :
    (host.put context bs).run.run s = (r.mapError (.io context), s') := by
  rw [put, run_look_bind h]
  cases r <;> rfl

end ArchiveHost

/-! ## What is told of reading -/

/-- What is seen of a tree that others change, and what is told in each state of the path of the
file that is open, if it is known, and of all bytes that were read. -/
structure ReadView (σ : Type) extends TreeView σ where
  tells : Option Bytes → Marks → σ → Prop

/-- Nothing is told of what is read. -/
def TreeView.untold (view : TreeView σ) : ReadView σ := ⟨view, fun _ _ _ ↦ True⟩

namespace ReadView

/-- The bytes that a call to read has given. -/
def piece (r : Except OsError Bytes) : Bytes := r.toOption.getD []

/-- A call reads nothing. -/
def Quiet (view : ReadView σ) (call : StateM σ α) : Prop :=
  ∀ {file? read s}, view.tells file? read s → view.tells file? read (call.run s).2

/-- A host of a tree that others change keeps what is told of its reading. -/
structure Records (view : ReadView σ) (host : ArchiveHost (StateM σ) η) : Prop where
  describes : view.Describes host
  forget : ∀ {file? read s}, view.tells file? read s → view.tells none read s
  inspect : ∀ path, view.Quiet (host.inspect path)
  list : ∀ path, view.Quiet (host.list path)
  readLink : ∀ path, view.Quiet (host.readLink path)
  openFile : ∀ path {read s r s'}, view.tells none read s → (host.openFile path).run s = (r, s') →
    view.tells none read s' ∧ ∀ file, r = .ok file → view.tells (some path) read s'
  read : ∀ file n {path read s r file' s'}, view.tells (some path) read s →
    (host.read file n).run s = ((r, file'), s') →
      view.tells (some path) (read ++ (piece r).map (·, some path)) s'
  write : ∀ data, view.Quiet (host.write data)

theorem records_untold {view : TreeView σ} {host : ArchiveHost (StateM σ) η}
    (h : view.Describes host) : view.untold.Records host where
  describes := h
  forget _ := trivial
  inspect _ := fun _ ↦ trivial
  list _ := fun _ ↦ trivial
  readLink _ := fun _ ↦ trivial
  openFile _ := fun _ _ ↦ ⟨trivial, fun _ _ ↦ trivial⟩
  read _ _ := fun _ _ ↦ trivial
  write _ := fun _ ↦ trivial

/-! ## What is written -/

section

variable (view : ReadView σ) (start root : Bytes)

/-- Some bytes were written behind those at the start, and their contents, with what was read and is
not written yet, are what was read. -/
structure Stage (file? : Option Bytes) (out ahead : Marks) (s : σ) : Prop where
  sound : view.Sound s
  taken_eq : view.taken s = start ++ out.map (·.1)
  tells : view.tells file? (contents out ++ ahead) s

/-- The writer has broken off: the bytes are to be continued, and not all that was read needs to be
among them. -/
structure BrokenOff (out : Marks) (s : σ) : Prop where
  sound : view.Sound s
  taken_eq : view.taken s = start ++ out.map (·.1)
  continues : Continues root out
  exists_tells : ∃ file? read, view.tells file? read s ∧ contents out <+: read

/-- After some bytes were written, and more was read, a program ends with what `post` says of its
value and of all that was written then, and nothing is ahead any more; or it breaks off. -/
def Writes (file? : Option Bytes) (out ahead : Marks) (x : ExceptT EngineError (StateM σ) α)
    (post : α → Marks → Prop) : Prop :=
  ∀ s, view.Stage start file? out ahead s → ∃ r s' out', x.run.run s = (r, s') ∧
    (∀ a, r = .ok a → view.Stage start file? out' [] s' ∧ post a out') ∧
    ∀ e, r = .error e → view.BrokenOff start root out' s'

end

variable {view : ReadView σ} {start root : Bytes} {host : ArchiveHost (StateM σ) η}
  {file? : Option Bytes} {out ahead : Marks} {s s' : σ}

theorem Stage.brokenOff (h : view.Stage start file? out ahead s) (hout : Continues root out) :
    view.BrokenOff start root out s :=
  ⟨h.sound, h.taken_eq, hout, _, _, h.tells, List.prefix_append _ _⟩

theorem Stage.takes (h : view.Stage start file? out ahead s) (htakes : view.Takes s [] s')
    {file?' : Option Bytes} {ahead' : Marks}
    (htells : view.tells file?' (contents out ++ ahead') s') :
    view.Stage start file?' out ahead' s' where
  sound := htakes.sound h.sound
  taken_eq := by rw [htakes.taken_eq, List.append_nil, h.taken_eq]
  tells := htells

namespace Writes

variable {x : ExceptT EngineError (StateM σ) α} {f : α → ExceptT EngineError (StateM σ) β}
  {post : α → Marks → Prop} {post' : β → Marks → Prop}

theorem pure {a : α} (ha : post a out) :
    view.Writes start root file? out [] (Pure.pure a) post := by
  intro s hs
  exact ⟨.ok a, s, out, rfl, fun _ heq ↦ ⟨hs, Except.ok.inj heq ▸ ha⟩, fun _ heq ↦ by cases heq⟩

theorem throw {e : EngineError} (hout : Continues root out) :
    view.Writes start root file? out ahead (MonadExcept.throw e) post := by
  intro s hs
  exact ⟨.error e, s, out, rfl, fun _ heq ↦ (by cases heq), fun _ _ ↦ hs.brokenOff hout⟩

theorem bind (hx : view.Writes start root file? out ahead x post)
    (hf : ∀ a out', post a out' → view.Writes start root file? out' [] (f a) post') :
    view.Writes start root file? out ahead (x >>= f) post' := by
  intro s hs
  obtain ⟨r, s₁, out₁, hrun, hok, herror⟩ := hx s hs
  cases r with
  | error e =>
    exact ⟨.error e, s₁, out₁, ArchiveHost.run_bind_of_error hrun, fun _ heq ↦ (by cases heq),
      fun _ _ ↦ herror e rfl⟩
  | ok a =>
    obtain ⟨hs₁, hpost⟩ := hok a rfl
    obtain ⟨r, s₂, out₂, hrun₂, hrest⟩ := hf a out₁ hpost s₁ hs₁
    exact ⟨r, s₂, out₂, (ArchiveHost.run_bind_of_ok hrun).trans hrun₂, hrest⟩

theorem mono {post' : α → Marks → Prop} (hx : view.Writes start root file? out ahead x post)
    (hpost : ∀ a out', post a out' → post' a out') :
    view.Writes start root file? out ahead x post' := by
  intro s hs
  obtain ⟨r, s', out', hrun, hok, herror⟩ := hx s hs
  exact ⟨r, s', out', hrun, fun a ha ↦ (hok a ha).imp_right (hpost a out'), herror⟩

theorem look {look : StateM σ α} {holds : α → Prop} (h : view.Looks look holds)
    (hquiet : view.Quiet look)
    (hf : ∀ a, holds a → view.Writes start root file? out ahead (f a) post') :
    view.Writes start root file? out ahead (liftM look >>= f) post' := by
  intro s hs
  obtain ⟨a, s₁, hrun, ha, htakes⟩ := h s hs.sound
  have htells := hquiet hs.tells
  rw [hrun] at htells
  obtain ⟨r, s₂, out₂, hrun₂, hrest⟩ := hf a ha s₁ (hs.takes htakes htells)
  exact ⟨r, s₂, out₂, (ArchiveHost.run_look_bind hrun).trans hrun₂, hrest⟩

end Writes

namespace Records

variable (h : view.Records host) {context : IoContext} {path bs : Bytes}
include h

/-- What was read and is not written yet is what is written next. A failure on the way leaves some
of it out. -/
theorem puts {more : Marks} (hstarts : Starts root (out ++ more)) (hbs : more.map (·.1) = bs) :
    view.Writes start root file? out (contents more) (host.put context bs)
      fun _ out' ↦ out' = out ++ more := by
  intro s hs
  obtain ⟨r, s', piece, hwrite, htakes, ⟨rest, hrest⟩, hr⟩ := h.describes.write bs s hs.sound.fits
  have hsound := htakes.sound hs.sound
  have htells := h.write bs hs.tells
  rw [hwrite] at htells
  cases r with
  | ok _ =>
    refine ⟨_, s', out ++ more, ArchiveHost.run_put hwrite, fun _ _ ↦ ⟨⟨hsound, ?_, ?_⟩, rfl⟩,
      fun _ heq ↦ by cases heq⟩
    · rw [htakes.taken_eq, hs.taken_eq, List.map_append, hbs, hr.1 rfl, List.append_assoc]
    · rwa [contents_append, List.append_nil]
  | error e =>
    -- the marks say the same of the piece that was taken and of the rest
    have hcut := List.take_append_drop piece.length more
    have hpiece : (more.take piece.length).map (·.1) = piece := by
      rw [List.map_take, hbs, ← hrest, List.take_left]
    have hmissing : more.drop piece.length ≠ [] := by
      intro hnil
      rw [hnil, List.append_nil] at hcut
      rw [hcut, hbs] at hpiece
      cases hr.2 hpiece.symm
    refine ⟨_, s', out ++ more.take piece.length, ArchiveHost.run_put hwrite,
      fun _ heq ↦ (by cases heq), fun _ _ ↦ ⟨hsound, ?_, ?_, _, _, htells, ?_⟩⟩
    · rw [htakes.taken_eq, hs.taken_eq, List.map_append, hpiece, List.append_assoc]
    · rw [← hcut, ← List.append_assoc] at hstarts
      exact hstarts.continues hmissing
    · rw [contents_append, List.prefix_append_right_inj]
      exact (List.take_prefix _ _).filter _

theorem putFrame (hstarts : Starts root (out ++ framed bs)) :
    view.Writes start root file? out [] (host.put context bs)
      fun _ out' ↦ out' = out ++ framed bs := by
  have hputs : view.Writes start root file? out (contents (framed bs)) (host.put context bs) _ :=
    h.puts hstarts (map_fst_framed bs)
  rwa [contents_framed] at hputs

theorem put (hstarts : Starts root (out ++ framed bs)) {next : ExceptT EngineError (StateM σ) α}
    {post : α → Marks → Prop}
    (hnext : view.Writes start root file? (out ++ framed bs) [] next post) :
    view.Writes start root file? out [] (host.put context bs >>= fun _ ↦ next) post :=
  (h.putFrame hstarts).bind fun _ _ hout' ↦ hout' ▸ hnext

theorem putPiece {file : Bytes} (hstarts : Starts root (out ++ bs.map (·, some file)))
    {next : ExceptT EngineError (StateM σ) α} {post : α → Marks → Prop}
    (hnext : view.Writes start root file? (out ++ bs.map (·, some file)) [] next post) :
    view.Writes start root file? out (bs.map (·, some file))
      (host.put context bs >>= fun _ ↦ next) post := by
  have hputs : view.Writes start root file? out (contents (bs.map (·, some file)))
      (host.put context bs) _ := h.puts hstarts (map_fst_piece _ bs)
  rw [contents_piece] at hputs
  exact hputs.bind fun _ _ hout' ↦ hout' ▸ hnext

/-- A file that was opened is known by its path, as long as it is copied. -/
theorem openFile_bind {f : Except OsError η → ExceptT EngineError (StateM σ) α}
    {post : α → Marks → Prop}
    (hok : ∀ file, view.Writes start root (some path) out [] (f (.ok file)) post)
    (herror : ∀ e, view.Writes start root none out [] (f (.error e)) post) :
    view.Writes start root none out [] (liftM (host.openFile path) >>= f) post := by
  intro s hs
  obtain ⟨r, s₁, hrun, htakes⟩ := h.describes.openFile path s hs.sound.fits
  obtain ⟨hunknown, hknown⟩ := h.openFile path hs.tells hrun
  rw [ArchiveHost.run_look_bind hrun]
  cases r with
  | error e => exact herror e s₁ (hs.takes htakes hunknown)
  | ok file =>
    obtain ⟨r, s', out', hrun', hok', herror'⟩ := hok file s₁ (hs.takes htakes (hknown file rfl))
    refine ⟨r, s', out', hrun', fun a ha ↦ ?_, herror'⟩
    obtain ⟨hs', hpost⟩ := hok' a ha
    exact ⟨⟨hs'.sound, hs'.taken_eq, h.forget hs'.tells⟩, hpost⟩

theorem read_bind (file : η) (n : Nat)
    {f : Except OsError Bytes × η → ExceptT EngineError (StateM σ) α} {post : α → Marks → Prop}
    (hf : ∀ r file', (∀ bytes, r = .ok bytes → bytes.length ≤ n) →
      view.Writes start root (some path) out ((piece r).map (·, some path)) (f (r, file')) post) :
    view.Writes start root (some path) out [] (liftM (host.read file n) >>= f) post := by
  intro s hs
  obtain ⟨r, file', s₁, hrun, hlength, htakes⟩ := h.describes.read file n s hs.sound.fits
  have htells := h.read file n hs.tells hrun
  rw [List.append_nil] at htells
  rw [ArchiveHost.run_look_bind hrun]
  exact hf r file' hlength s₁ (hs.takes htakes htells)

/-! ## Entries that are not directories -/

/-- What is copied of a file is what was read of it, and no more than its size. -/
theorem copy (file : η) (remaining : Nat) {out : Marks}
    (hout : ∀ data : Bytes, data.length ≤ remaining →
      Continues root (out ++ data.map (·, some path))) :
    view.Writes start root (some path) out [] (host.copy path file remaining) fun missing out' ↦
      ∃ data : Bytes,
        out' = out ++ data.map (·, some path) ∧ data.length + missing = remaining := by
  induction file, remaining using ArchiveHost.copy.induct generalizing out with
  | case1 file =>
    rw [ArchiveHost.copy, if_pos rfl]
    exact .pure ⟨[], (List.append_nil out).symm, rfl⟩
  | case2 file remaining hpos ih =>
    have hnow : Continues root out := by
      have hnothing := hout [] (Nat.zero_le _)
      rwa [List.map_nil, List.append_nil] at hnothing
    rw [ArchiveHost.copy, if_neg hpos]
    refine h.read_bind file _ fun r file' hr ↦ ?_
    obtain e | _ | ⟨b, piece⟩ := r
    · exact .throw hnow
    · exact .pure ⟨[], (List.append_nil out).symm, Nat.zero_add _⟩
    · have hlength : (b :: piece).length ≤ remaining :=
        Nat.le_trans (hr _ rfl) (Nat.min_le_left _ _)
      refine h.putPiece (hout _ hlength).starts ((ih piece file' fun data hdata ↦ ?_).mono ?_)
      · rw [List.append_assoc, ← List.map_append]
        exact hout _ (by rw [List.length_append, List.length_cons] at *; omega)
      · rintro missing out' ⟨data, rfl, hdata⟩
        refine ⟨b :: piece ++ data, ?_, ?_⟩
        · rw [List.append_assoc, ← List.map_append]
        · rw [List.length_append, List.length_cons] at *
          omega

variable {around : Enclosing}

theorem dumpFile (haround : around.Valid) {status : FileStatus} (hsize : status.size < sizeLimit) :
    view.Writes start root none (around.front root) []
      (host.dumpFile (around.path root) status) fun _ out ↦ ∃ node : ArchiveNode,
        node.WellFormed ∧ out = around.front root ++ node.marked (around.path root) := by
  have hopened : Continues root (around.front root ++
      framed (Archive.openFile status.executable status.size)) :=
    haround.continues_openFile root hsize
  rw [ArchiveHost.dumpFile]
  refine h.put hopened.starts (h.openFile_bind (fun file ↦ ?_) fun e ↦ .throw hopened)
  refine (h.copy file _ fun _ ↦ haround.continues_contents root hsize).bind
    fun missing out' hcopied ↦ ?_
  obtain ⟨data, rfl, hdata⟩ := hcopied
  by_cases hmissing : missing = 0
  · have hwhole : data.length = status.size := by rw [← hdata, hmissing, Nat.add_zero]
    have hfile : (ArchiveNode.file status.executable data).WellFormed := .file (hwhole ▸ hsize)
    have hmarked : around.front root ++
        (ArchiveNode.file status.executable data).marked (around.path root) = _ :=
      around.front_marked_file root hwhole
    have hstarts := haround.starts root hfile
    rw [hmarked] at hstarts
    rw [if_pos hmissing]
    exact (h.putFrame hstarts).mono fun _ _ hout' ↦ ⟨_, hfile, hout'.trans hmarked.symm⟩
  · rw [if_neg hmissing]
    exact .throw (haround.continues_contents root hsize (by omega))

theorem dumpLeaf (haround : around.Valid) (kind : FileKind) :
    view.Writes start root none (around.front root) [] (host.dumpLeaf (around.path root) kind)
      fun _ out ↦ ∃ node : ArchiveNode,
        node.WellFormed ∧ out = around.front root ++ node.marked (around.path root) := by
  have hfront := haround.continues_front root
  cases kind with
  | link =>
    refine .look (h.describes.looks_readLink _) (h.readLink _) fun r hr ↦ ?_
    cases r with
    | error e => exact .throw hfront
    | ok target =>
      have htarget : (ArchiveNode.link target).WellFormed := .link (hr target rfl)
      exact (h.putFrame (haround.starts root htarget)).mono fun _ _ hout' ↦ ⟨_, htarget, hout'⟩
  | file =>
    refine .look (h.describes.looks_inspect _) (h.inspect _) fun r hr ↦ ?_
    rcases r with e | ⟨kind, status⟩
    · exact .throw hfront
    · exact h.dumpFile haround (hr kind status rfl)
  | directory | other => exact .throw hfront

end Records

end ReadView

/-! ## The directories that are open -/

namespace Enclosing

/-- The depths of the directories around the entry that comes next. -/
def openDepths : Enclosing → List Nat
  | [] => [0]
  | _ :: outer => (outer.length + 1) :: openDepths outer

theorem closeDownTo_openDepths (host : ArchiveHost (StateM σ) η) (around : Enclosing) :
    host.closeDownTo (around.length + 1) around.openDepths = pure around.openDepths := by
  cases around with
  | nil => exact host.closeDownTo_cons_of_lt (Nat.lt_succ_self _) _
  | cons level outer => exact host.closeDownTo_cons_of_lt (Nat.lt_succ_self _) _

/-- Where the writer stands: in the innermost directory some entries are done, and so much was
written. Of the last of them directories may still be open. -/
inductive Stands (root : Bytes) :
    Enclosing → List (Bytes × ArchiveNode) → Marks → List Nat → Prop
  | here {around : Enclosing} {entries} (haround : around.Valid)
      (hentries : (directory entries).WellFormed) :
      Stands root around entries (around.within root entries) around.openDepths
  | deeper {around : Enclosing} {entries name inner out openDirs}
      (h : Stands root ((entries, name) :: around) inner out openDirs) :
      Stands root around (entries ++ [(name, .directory inner)]) out openDirs

namespace Stands

variable {around : Enclosing} {entries : List (Bytes × ArchiveNode)} {out : Marks}
  {openDirs : List Nat} {name root : Bytes}

theorem valid (h : Stands root around entries out openDirs) :
    around.Valid ∧ (directory entries).WellFormed := by
  induction h with
  | here haround hentries => exact ⟨haround, hentries⟩
  | deeper h ih =>
    obtain ⟨hlevel, haround⟩ := List.forall_mem_cons.1 ih.1
    exact ⟨haround, hlevel.wellFormed_append ih.2⟩

theorem valid_cons (h : Stands root around entries out openDirs) (hname : Admits entries name) :
    Valid ((entries, name) :: around) :=
  List.forall_mem_cons.2 ⟨hname, h.valid.1⟩

theorem continues (h : Stands root around entries out openDirs) : Continues root out := by
  induction h with
  | here haround hentries => exact haround.continues_within root hentries
  | deeper h ih => exact ih

/-- The next of some entries in their order may stand here, and those behind it after it. -/
theorem next {e : Bytes × FileKind} {rest : List (Bytes × FileKind)}
    (h : Stands root around entries out openDirs)
    (hsorted : (entries.map (·.1) ++ (e :: rest).map (·.1)).Pairwise (· < ·))
    (hnames : ∀ e' ∈ e :: rest, e'.1.length < sizeLimit) : Admits entries e.1 ∧
      (∀ node : ArchiveNode,
        ((entries ++ [(e.1, node)]).map (·.1) ++ rest.map (·.1)).Pairwise (· < ·)) ∧
      ∀ e' ∈ rest, e'.1.length < sizeLimit := by
  obtain ⟨hlength, hlengths⟩ := List.forall_mem_cons.1 hnames
  refine ⟨⟨h.valid.2, fun e' he' ↦ ?_, hlength⟩, fun node ↦ ?_, hlengths⟩
  · exact (List.pairwise_append.1 hsorted).2.2 e'.1 (List.mem_map.2 ⟨e', he', rfl⟩) e.1
      List.mem_cons_self
  · rw [List.map_append, List.append_assoc]
    exact hsorted

end Stands

end Enclosing

open Enclosing

namespace ReadView.Records

variable {view : ReadView σ} {start root : Bytes} {host : ArchiveHost (StateM σ) η}
  (h : view.Records host) {around : Enclosing} {entries : List (Bytes × ArchiveNode)} {out : Marks}
  {openDirs : List Nat} {name : Bytes}
include h

/-- Closing down to the directory that the writer stands in leaves all its entries done. -/
theorem closeDownTo (hstands : Stands root around entries out openDirs) :
    view.Writes start root none out [] (host.closeDownTo (around.length + 1) openDirs)
      fun openDirs' out' ↦ openDirs' = around.openDepths ∧ out' = around.within root entries := by
  induction hstands with
  | here haround hentries =>
    rw [closeDownTo_openDepths]
    exact .pure ⟨rfl, rfl⟩
  | @deeper around entries name inner out openDirs hstands ih =>
    have hentry : around.within root (entries ++ [(name, .directory inner)])
        = within root ((entries, name) :: around) inner ++ framed close ++ framed close := by
      rw [within_append, ← within_close]
    have hstarts := (hstands.deeper.valid.1.continues_within root hstands.deeper.valid.2).starts
    rw [hentry] at hstarts ⊢
    rw [← host.closeDownTo_closeDownTo (Nat.le_succ _) openDirs]
    refine ih.bind fun openDirs' out' hclosed ↦ ?_
    obtain ⟨rfl, rfl⟩ := hclosed
    rw [openDepths, ArchiveHost.closeDownTo, if_pos (Nat.le_refl _)]
    refine h.put hstarts.of_append ?_
    rw [host.putAround_of_pos (Nat.succ_pos _)]
    refine h.put hstarts ?_
    rw [closeDownTo_openDepths]
    exact .pure ⟨rfl, rfl⟩

theorem openEntry (hstands : Stands root around entries out openDirs) (hname : Admits entries name)
    {next : List Nat → ExceptT EngineError (StateM σ) α} {post : α → Marks → Prop}
    (hnext : view.Writes start root none (front root ((entries, name) :: around)) []
      (next around.openDepths) post) :
    view.Writes start root none out []
      (host.closeDownTo (around.length + 1) openDirs >>= fun openDirs ↦
        host.put .writingArchive (Archive.openEntry name) >>= fun _ ↦ next openDirs) post := by
  have hfront := (hstands.valid_cons hname).continues_front root
  rw [front_cons] at hfront hnext
  refine (h.closeDownTo hstands).bind fun openDirs' out' hclosed ↦ ?_
  obtain ⟨rfl, rfl⟩ := hclosed
  exact h.put hfront.starts hnext

theorem visit_leaf (hstands : Stands root around entries out openDirs)
    (hname : Admits entries name) {kind : FileKind} (hkind : kind ≠ .directory) :
    view.Writes start root none out []
      (host.visit (around.length + 1) (FilePath.join (around.path root) name) name kind openDirs)
      fun openDirs' out' ↦
        ∃ node, Stands root around (entries ++ [(name, node)]) out' openDirs' := by
  rw [host.visit_leaf (Nat.succ_pos _) hkind]
  refine h.openEntry hstands hname
    ((h.dumpLeaf (hstands.valid_cons hname) kind).bind fun _ out' hleaf ↦ ?_)
  obtain ⟨node, hnode, rfl⟩ := hleaf
  have hhere : Stands root around (entries ++ [(name, node)]) _ _ :=
    .here hstands.valid.1 (hname.wellFormed_append hnode)
  have hstarts := hhere.continues.starts
  rw [within_append] at hhere hstarts
  exact h.put hstarts (.pure ⟨node, hhere⟩)

theorem visit_directory (hstands : Stands root around entries out openDirs)
    (hname : Admits entries name) (path : Bytes) :
    view.Writes start root none out []
      (host.visit (around.length + 1) path name .directory openDirs)
      fun openDirs' out' ↦ Stands root ((entries, name) :: around) [] out' openDirs' := by
  have hhere : Stands root ((entries, name) :: around) [] _ _ :=
    .here (hstands.valid_cons hname) wellFormed_empty
  have hstarts := hhere.continues.starts
  rw [within_nil] at hhere hstarts
  rw [host.visit_directory (Nat.succ_pos _)]
  exact h.openEntry hstands hname (h.put hstarts (.pure hhere))

/-- The walk over the entries of a directory goes on where it stands and stays in that directory. -/
theorem walk (depth : Nat) (path : Bytes) (openDirs : List Nat) (rest : List (Bytes × FileKind)) :
    ∀ {around : Enclosing} {entries : List (Bytes × ArchiveNode)} {out : Marks},
      depth = around.length + 1 → path = around.path root →
      Stands root around entries out openDirs →
      (entries.map (·.1) ++ rest.map (·.1)).Pairwise (· < ·) →
      (∀ e ∈ rest, e.1.length < sizeLimit) →
      view.Writes start root none out [] (host.walk depth path openDirs rest) fun openDirs' out' ↦
        ∃ entries', Stands root around entries' out' openDirs' := by
  fun_induction ArchiveHost.walk host depth path openDirs rest
  case case1 depth path openDirs =>
    intro around entries out _ _ hstands _ _
    exact .pure ⟨entries, hstands⟩
  case case2 depth path openDirs name rest here longer ihinner ihrest =>
    rintro around entries out rfl rfl hstands hsorted hnames
    obtain ⟨hname, hsorted', hnames'⟩ := hstands.next hsorted hnames
    refine .look (h.describes.looks_list _) (h.list _) fun listing hlisting ↦ ?_
    refine (h.visit_directory hstands hname here).bind fun openDirs' out' hopened ↦ ?_
    cases listing with
    | error e => exact .throw hopened.continues
    | ok listed =>
      obtain ⟨hincreasing, hfit⟩ := hlisting listed rfl
      refine (ihinner openDirs' listed rfl rfl hopened hincreasing hfit).bind
        fun openDirs₂ out₂ hwalked ↦ ?_
      obtain ⟨inner, hinner⟩ := hwalked
      exact ihrest openDirs₂ rfl rfl hinner.deeper (hsorted' _) hnames'
  case case3 depth path openDirs name rest here longer =>
    rintro around entries out rfl rfl hstands hsorted hnames
    obtain ⟨hname, -, -⟩ := hstands.next hsorted hnames
    exact (h.visit_directory hstands hname here).bind fun openDirs' out' hopened ↦
      .throw hopened.continues
  case case4 depth path openDirs name kind rest here hkind ih =>
    rintro around entries out rfl rfl hstands hsorted hnames
    obtain ⟨hname, hsorted', hnames'⟩ := hstands.next hsorted hnames
    refine (h.visit_leaf hstands hname hkind).bind fun openDirs' out' hvisited ↦ ?_
    obtain ⟨node, hnode⟩ := hvisited
    exact ih openDirs' rfl rfl hnode (hsorted' node) hnames'

theorem closeAll (hstands : Stands root [] entries out openDirs) :
    view.Writes start root none out [] (host.closeDownTo 0 openDirs) fun _ out' ↦
      ∃ node : ArchiveNode, node.WellFormed ∧ out' = node.markedArchive root := by
  have hwhole : within root [] entries ++ framed close = (directory entries).markedArchive root :=
    within_close root [] entries
  have hstarts : Starts root (within root [] entries ++ framed close) :=
    ⟨_, hstands.valid.2, hwhole ▸ List.prefix_rfl⟩
  rw [← host.closeDownTo_closeDownTo (Nat.zero_le 1) openDirs]
  refine (h.closeDownTo hstands).bind fun openDirs' out' hclosed ↦ ?_
  obtain ⟨rfl, rfl⟩ := hclosed
  exact h.put hstarts (.pure ⟨_, hstands.valid.2, hwhole⟩)

theorem visit_root {kind : FileKind} (hkind : kind ≠ .directory) :
    view.Writes start root none (framed magic) [] (host.visit 0 root name kind []) fun _ out' ↦
      ∃ node : ArchiveNode, node.WellFormed ∧ out' = node.markedArchive root := by
  have hleaf : view.Writes start root none (front root []) []
      (host.dumpLeaf (Enclosing.path root []) kind) _ := h.dumpLeaf valid_nil kind
  simp only [ArchiveHost.visit, ArchiveHost.closeDownTo, ArchiveHost.putAround, pure_bind,
    Nat.lt_irrefl, if_false, if_neg hkind]
  exact hleaf.bind fun _ _ hwritten ↦ .pure hwritten

theorem dump (root : Bytes) : view.Writes start root none [] [] (host.dump root) fun _ out ↦
    ∃ node : ArchiveNode, node.WellFormed ∧ out = node.markedArchive root := by
  have hmagic : Continues root (framed magic) := valid_nil.continues_front root
  have hopened : Stands root [] [] (framed magic ++ framed openDirectory) [0] :=
    within_nil root [] ▸ .here valid_nil wellFormed_empty
  rw [ArchiveHost.dump]
  refine h.put hmagic.starts
    (.look (h.describes.looks_inspect root) (h.inspect root) fun r _ ↦ ?_)
  rcases r with e | ⟨kind, status⟩
  · exact .throw hmagic
  cases kind with
  | directory =>
    refine .look (h.describes.looks_list root) (h.list root) fun listing hlisting ↦ ?_
    simp only [ArchiveHost.visit, ArchiveHost.closeDownTo, ArchiveHost.putAround, pure_bind,
      if_true, Nat.lt_irrefl, if_false, bind_assoc]
    refine h.put hopened.continues.starts ?_
    cases listing with
    | error e => exact .throw hopened.continues
    | ok listed =>
      obtain ⟨hincreasing, hfit⟩ := hlisting listed rfl
      refine (h.walk 1 root [0] _ rfl rfl hopened hincreasing hfit).bind
        fun openDirs' out' hwalked ↦ ?_
      obtain ⟨entries, hentries⟩ := hwalked
      exact (h.closeAll hentries).bind fun _ _ hclosed ↦ .pure hclosed
  | file | link | other =>
    exact (h.visit_root (by decide)).bind fun _ _ hvisited ↦ .pure hvisited

end ReadView.Records

end NixStore
