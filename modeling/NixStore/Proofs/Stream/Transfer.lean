import NixStore.Engine.Fixed
import NixStore.Handle
import NixStore.Proofs.StorePath.Parsing
import NixStore.Proofs.Stream.Delivery
import NixStore.Proofs.Stream.Interleaving

/-!
# Transfers of archives

A transfer asks the engine for a producer, writes the producer's archive to a sink chunk by chunk,
and flushes the sink at the end; one with a digest first reads the record of the path, and compares
it with what was written before the sink is flushed. The engine and the sink have states of their
own, and a transfer is run from a pair of them.

A transfer succeeds exactly if everything it depends on does: the record is there, the producer
succeeds, the sink has room for the archive, the archive is the recorded one, and the flush
succeeds. The sink is flushed behind the last byte of an archive that is accepted, and never
otherwise. A transfer breaks off, and does not fail, only where its channel cannot be made.
-/

namespace NixStore

variable {σ τ : Type}

namespace Handle

/-! ## Runs -/

/-- A program ends with a result, and leaves the sink and the engine in some states. -/
def Comes {ε α : Type} (x : ExceptT ε (StateT σ (StateM τ)) α) (s : σ) (t : τ) (r : Except ε α)
    (s' : σ) (t' : τ) : Prop :=
  (x.run.run s).run t = ((r, s'), t')

section

variable {ε ε' α β : Type} {x : ExceptT ε (StateT σ (StateM τ)) α} {s s' s₁ : σ} {t t' t₁ : τ}
  {f : α → ExceptT ε (StateT σ (StateM τ)) β} {r : Except ε β}

theorem Comes.bind {a : α} (h : Comes x s t (.ok a) s₁ t₁) (h' : Comes (f a) s₁ t₁ r s' t') :
    Comes (x >>= f) s t r s' t' := by
  rw [Comes] at h h' ⊢
  rw [ExceptT.run_bind, StateT.run_bind, StateT.run_bind, h]
  exact h'

theorem Comes.bind_error {e : ε} (h : Comes x s t (.error e) s' t') :
    Comes (x >>= f) s t (.error e) s' t' := by
  rw [Comes] at h ⊢
  rw [ExceptT.run_bind, StateT.run_bind, StateT.run_bind, h]
  rfl

theorem Comes.adapt {a : Except ε α} (h : Comes x s t a s' t') (g : ε → ε') :
    Comes (x.adapt g) s t (a.mapError g) s' t' := by
  rw [Comes] at h ⊢
  rw [ExceptT.run_adapt, StateT.run_map, StateT.run_map, h]
  rfl

theorem Comes.ofEngine {x : ExceptT ε (StateM τ) α} {r : Except ε α} (h : x.run.run t = (r, t'))
    (s : σ) : Comes (ExceptT.mk (liftM x.run)) s t r s t' := by
  rw [Comes]
  change (StateT.lift x.run s).run t = _
  rw [StateT.lift, StateT.run_bind, h]
  rfl

theorem Comes.ofSink {r : Except ε α} (h : x.run.run s = pure (r, s')) (t : τ) :
    Comes x s t r s' t := by
  rw [Comes, h]
  rfl

end

/-! ## Starting and copying -/

variable {h : Handle (StateM τ)} {view : SinkView σ} {sink : Sink (StateT σ (StateM τ))}

/-- A handle sends an archive: there can be a channel and a buffer for it, and the producer
succeeds. -/
def Sends {m : Type → Type} (h : Handle m) (producer : Producer (Except Fault Unit))
    (archive : Bytes) : Prop :=
  h.channelCapacity ≤ ArchiveStream.maxCapacity ∧ h.chunkSize ≤ ArchiveStream.maxChunkSize ∧
    producer.account h.chunkSize = (.ok (), archive)

theorem Sends.unique {producer : Producer (Except Fault Unit)} {archive archive' : Bytes}
    (hsends : h.Sends producer archive) (hsends' : h.Sends producer archive') :
    archive' = archive :=
  (Prod.mk.inj (hsends'.2.2.symm.trans hsends.2.2)).2

theorem run_start {ρ : Type} (h : Handle (StateM ρ)) (p : StorePath) (t : ρ) :
    (h.start true none p).run.run t =
      if ArchiveStream.maxCapacity < h.channelCapacity then
        (.error (.panicked (text "a semaphore may not have more than MAX_PERMITS permits")), t)
      else if ArchiveStream.maxChunkSize < h.chunkSize then (.ok (.ofMessages p []), t)
      else
        let started := (h.engine.archive p).run t
        (.ok (.ofMessages p ((started.1.transmit h.chunkSize).run none).2), started.2) := by
  simp only [start, Bool.not_true, Bool.false_eq_true, if_false]
  split
  · rfl
  · split <;> rfl

theorem exists_comes_copyTo (hsink : view.Describes sink) (p : StorePath)
    (producer : Producer (Except Fault Unit)) (chunkSize : Nat) (s : σ) (t : τ) :
    ∃ r s', Comes ((ArchiveStream.ofMessages p ((producer.transmit chunkSize).run none).2).copyTo
        sink) s t r s' t ∧ view.flushes s' = view.flushes s ∧
      (r = .ok () ↔ ∃ archive, producer.account chunkSize = (.ok (), archive) ∧
        view.Fits s archive) ∧
      ∀ archive, producer.account chunkSize = (.ok (), archive) →
        (r = .ok () → view.held s' = view.held s ++ archive) ∧
        (ArchiveStream.ofMessages p ((producer.transmit chunkSize).run none).2).digest
          = .ofBytes archive := by
  obtain ⟨chunks, hrun, -, -, hall⟩ := producer.run_transmit chunkSize
  obtain ⟨hchunks, hfailure⟩ := Channel.chunks_and_failure p chunks
    (Channel.isTerminal_lastMessage (producer.account chunkSize).1)
  rw [Channel.ending_lastMessage] at hfailure
  rw [hrun]
  obtain ⟨r, s', hcopy, hcopied⟩ := hsink.copyTo (.ofMessages p (chunks.map .chunk ++
    [Producer.lastMessage (producer.account chunkSize).1])) s
  have hr := hcopied.eq_ok_iff
  have hheld := hcopied.took.held_eq
  rw [ArchiveStream.bytes, hchunks] at hr hheld
  rw [ArchiveStream.outcome, hfailure] at hr
  refine ⟨r, s', .ofSink hcopy t, hcopied.took.flushes_eq, ?_,
    fun archive harchive ↦ ⟨fun hok ↦ ?_, ?_⟩⟩
  · rw [hr]
    rcases haccount : producer.account chunkSize with ⟨_ | _, archive⟩
    · simp
    · rw [haccount] at hall
      rw [hall rfl]
      simp
  · rw [harchive] at hall
    rw [hheld, SinkView.fitting_of_fits (hr.1 hok).2, hall rfl]
  · rw [harchive] at hall
    rw [ArchiveStream.digest, hchunks, ArchiveDigest.ofHasher_foldl, hall rfl]

theorem exists_comes_start (hsink : view.Describes sink) (p : StorePath) (s : σ) (t : τ) :
    ∃ r t', Comes (ExceptT.mk (liftM (h.start true none p).run)) s t r s t' ∧
      match r with
      | .error f =>
        (∃ message, f = .panicked message) ∧ ArchiveStream.maxCapacity < h.channelCapacity
      | .ok stream => stream.path = p ∧
        ∃ r s', Comes (stream.copyTo sink) s t' r s' t' ∧ view.flushes s' = view.flushes s ∧
          (r = .ok () ↔ ∃ archive, h.Sends ((h.engine.archive p).run t).1 archive ∧
            view.Fits s archive) ∧
          ∀ archive, h.Sends ((h.engine.archive p).run t).1 archive →
            (r = .ok () → view.held s' = view.held s ++ archive) ∧
            stream.digest = .ofBytes archive := by
  by_cases hcapacity : ArchiveStream.maxCapacity < h.channelCapacity
  · refine ⟨.error (.panicked (text "a semaphore may not have more than MAX_PERMITS permits")), t,
      .ofEngine ?_ s, ⟨_, rfl⟩, hcapacity⟩
    rw [run_start, if_pos hcapacity]
  by_cases hsize : ArchiveStream.maxChunkSize < h.chunkSize
  · -- nothing is sent, and the stream ends without a last message
    refine ⟨.ok (.ofMessages p []), t, .ofEngine ?_ s, rfl, .error (.archive p .unfinished), s,
      .ofSink rfl t, rfl, ⟨nofun, ?_⟩, ?_⟩
    · rw [run_start, if_neg hcapacity, if_pos hsize]
    · rintro ⟨archive, ⟨-, hle, -⟩, -⟩
      exact absurd hsize (Nat.not_lt.2 hle)
    · rintro archive ⟨-, hle, -⟩
      exact absurd hsize (Nat.not_lt.2 hle)
  · have hsends : ∀ archive, h.Sends ((h.engine.archive p).run t).1 archive ↔
        ((h.engine.archive p).run t).1.account h.chunkSize = (.ok (), archive) := fun archive ↦
      ⟨fun h ↦ h.2.2, fun h ↦ ⟨Nat.not_lt.1 hcapacity, Nat.not_lt.1 hsize, h⟩⟩
    have hcopy := exists_comes_copyTo hsink p ((h.engine.archive p).run t).1 h.chunkSize s
      ((h.engine.archive p).run t).2
    simp only [← hsends] at hcopy
    refine ⟨.ok _, ((h.engine.archive p).run t).2, .ofEngine ?_ s, rfl, hcopy⟩
    rw [run_start, if_neg hcapacity, if_neg hsize]

/-! ## What a transfer comes to -/

/-- What a transfer to a sink came to. `accepted` holds of the bytes that the sink should hold and
be flushed with, and `gives` tells what is then given for them. -/
structure Transferred {α : Type} (h : Handle (StateM τ)) (view : SinkView σ)
    (accepted : Bytes → Prop) (gives : Bytes → α → Prop) (s : σ) (r : Except StreamFault α)
    (s' : σ) : Prop where
  ok_iff : ∀ a, r = .ok a ↔ ∃ archive, accepted archive ∧
    view.flushes s' = view.flushes s ++ [(view.held s ++ archive, .ok ())] ∧ gives archive a
  /-- Bytes that are accepted are held then, and the sink was flushed once behind them. -/
  flushed : ∀ archive, accepted archive → view.held s' = view.held s ++ archive ∧
    ∃ outcome, view.flushes s' = view.flushes s ++ [(view.held s ++ archive, outcome)]
  /-- A transfer that fails has not flushed the sink, unless that is what failed. -/
  failed : ∀ f, r = .error f → view.flushes s' = view.flushes s ∨ ∃ archive p e,
    accepted archive ∧ view.flushes s' = view.flushes s ++ [(view.held s ++ archive, .error e)] ∧
      f = .error (.archive p (.sink e))
  /-- It breaks off only where no channel can be made. -/
  broken : ∀ message, r = .error (.panicked message) →
    ArchiveStream.maxCapacity < h.channelCapacity

namespace Transferred

variable {α : Type} {p : StorePath} {accepted accepted' : Bytes → Prop} {gives : Bytes → α → Prop}
  {r : Except StreamFault α} {s s' : σ}

theorem congr (h' : h.Transferred view accepted gives s r s')
    (haccepted : ∀ archive, accepted' archive ↔ accepted archive) :
    h.Transferred view accepted' gives s r s' := by
  rwa [show accepted' = accepted from funext fun archive ↦ propext (haccepted archive)]

theorem of_failure {f : StreamFault} (hflushes : view.flushes s' = view.flushes s)
    (hnone : ∀ archive, ¬accepted archive)
    (hbroken : ∀ message, f = .panicked message → ArchiveStream.maxCapacity < h.channelCapacity) :
    h.Transferred view accepted gives s (.error f) s' where
  ok_iff _ := ⟨nofun, fun ⟨archive, haccepted, _⟩ ↦ absurd haccepted (hnone archive)⟩
  flushed archive haccepted := absurd haccepted (hnone archive)
  failed _ _ := .inl hflushes
  broken message hf := hbroken message (Except.error.inj hf)

theorem of_flush {archive : Bytes} {a : α} {outcome : Except IoError Unit}
    (haccepted : ∀ bytes, accepted bytes ↔ bytes = archive) (hgives : ∀ b, gives archive b ↔ b = a)
    (hheld : view.held s' = view.held s ++ archive)
    (hflushes : view.flushes s' = view.flushes s ++ [(view.held s ++ archive, outcome)]) :
    h.Transferred view accepted gives s
      (outcome.mapError (fun e ↦ .error (.archive p (.sink e))) >>= fun _ ↦ pure a) s' where
  ok_iff b := by
    simp only [haccepted, hflushes, exists_eq_left, hgives, List.append_cancel_left_eq,
      List.cons.injEq, Prod.mk.injEq, true_and, and_true]
    cases outcome with
    | error e => exact ⟨nofun, nofun⟩
    | ok _ => exact ⟨fun h ↦ ⟨rfl, (Except.ok.inj h).symm⟩, fun h ↦ congrArg Except.ok h.2.symm⟩
  flushed bytes hbytes := by
    rw [(haccepted bytes).1 hbytes]
    exact ⟨hheld, outcome, hflushes⟩
  failed f hf := by
    cases outcome with
    | error e => exact .inr ⟨archive, p, e, (haccepted archive).2 rfl, hflushes,
        (Except.error.inj hf).symm⟩
    | ok _ => cases hf
  broken message hf := by
    cases outcome with
    | error e => cases Except.error.inj hf
    | ok _ => cases hf

end Transferred

/-- What is done with an archive that was copied: if it passes a check the sink is flushed and an
answer is given for the archive, and otherwise nothing is done and the transfer fails. -/
def Finishes {α : Type} (view : SinkView σ) (p : StorePath) (passes : Bytes → Prop)
    (gives : Bytes → α → Prop)
    (finish : ArchiveStream → ExceptT StreamFault (StateT σ (StateM τ)) α) : Prop :=
  ∀ stream archive s (t : τ), stream.path = p → stream.digest = .ofBytes archive →
    (passes archive → ∃ a outcome s', (∀ b, gives archive b ↔ b = a) ∧
      Comes (finish stream) s t
        (outcome.mapError (fun e ↦ .error (.archive p (.sink e))) >>= fun _ ↦ pure a) s' t ∧
      view.held s' = view.held s ∧
      view.flushes s' = view.flushes s ++ [(view.held s, outcome)]) ∧
    (¬passes archive → ∃ e, Comes (finish stream) s t (.error (.error e)) s t)

/-- What starting and copying an archive and finishing it then come to. -/
theorem exists_transferred {α : Type} (hsink : view.Describes sink) (p : StorePath)
    {passes : Bytes → Prop} {gives : Bytes → α → Prop}
    {finish : ArchiveStream → ExceptT StreamFault (StateT σ (StateM τ)) α}
    (hfinish : Finishes view p passes gives finish) (s : σ) (t : τ) :
    ∃ r s' t', Comes (do
        let stream ← ExceptT.mk (liftM (h.start true none p).run)
        (stream.copyTo sink).adapt .error
        finish stream) s t r s' t' ∧
      h.Transferred view (fun archive ↦ h.Sends ((h.engine.archive p).run t).1 archive ∧
        view.Fits s archive ∧ passes archive) gives s r s' := by
  obtain ⟨r, t', hstart, hr⟩ := exists_comes_start (h := h) hsink p s t
  cases r with
  | error f =>
    obtain ⟨⟨message, rfl⟩, hcapacity⟩ := hr
    refine ⟨_, s, t', hstart.bind_error, .of_failure rfl ?_ fun _ _ ↦ hcapacity⟩
    rintro archive ⟨⟨hle, -⟩, -⟩
    exact absurd hcapacity (Nat.not_lt.2 hle)
  | ok stream =>
    obtain ⟨hpath, r, s₁, hcopy, hflushes, hok, hall⟩ := hr
    cases r with
    | error e =>
      refine ⟨_, s₁, t', hstart.bind (hcopy.adapt StreamFault.error).bind_error,
        .of_failure hflushes (fun archive haccepted ↦ ?_) nofun⟩
      obtain ⟨hsends, hfits, -⟩ := haccepted
      exact nomatch hok.2 ⟨archive, hsends, hfits⟩
    | ok _ =>
      obtain ⟨archive, hsends, hfits⟩ := hok.1 rfl
      obtain ⟨hheld, hdigest⟩ := hall archive hsends
      have hheld := hheld rfl
      by_cases hpasses : passes archive
      · obtain ⟨a, outcome, s', hgives, hcomes, hheld', hflushes'⟩ :=
          (hfinish stream archive s₁ t' hpath hdigest).1 hpasses
        refine ⟨_, s', t', hstart.bind ((hcopy.adapt StreamFault.error).bind hcomes),
          .of_flush (fun bytes ↦ ⟨fun hbytes ↦ hsends.unique hbytes.1, ?_⟩) hgives
            (hheld'.trans hheld) (by rw [hflushes', hflushes, hheld])⟩
        rintro rfl
        exact ⟨hsends, hfits, hpasses⟩
      · obtain ⟨e, hcomes⟩ := (hfinish stream archive s₁ t' hpath hdigest).2 hpasses
        refine ⟨_, s₁, t', hstart.bind ((hcopy.adapt StreamFault.error).bind hcomes),
          .of_failure hflushes (fun bytes hbytes ↦ ?_) nofun⟩
        obtain ⟨hbytes, -, hpasses'⟩ := hbytes
        exact hpasses (hsends.unique hbytes ▸ hpasses')

theorem exists_comes_finish (hsink : view.Describes sink) (p : StorePath) (s : σ) (t : τ) :
    ∃ outcome s', Comes ((sink.finish p).adapt StreamFault.error) s t
        (outcome.mapError fun e ↦ .error (.archive p (.sink e))) s' t ∧
      view.held s' = view.held s ∧
      view.flushes s' = view.flushes s ++ [(view.held s, outcome)] := by
  obtain ⟨outcome, s', hflush, hheld, hflushes⟩ := hsink.flushed s
  refine ⟨outcome, s', ?_, hheld, hflushes⟩
  have hfinish :
      Comes (sink.finish p) s t (outcome.mapError fun e ↦ .archive p (.sink e)) s' t := by
    refine .ofSink ?_ t
    simp only [Sink.finish, ExceptT.run_bind, ExceptT.run_liftM, StateT.run_bind, StateT.run_map,
      hflush, map_pure, pure_bind]
    cases outcome <;> rfl
  have hadapt := hfinish.adapt StreamFault.error
  cases outcome <;> exact hadapt

theorem finishes_streamArchive (hsink : view.Describes sink) (p : StorePath) :
    Finishes (τ := τ) view p (fun _ ↦ True) (fun _ (_ : Unit) ↦ True)
      fun stream ↦ (sink.finish stream.path).adapt .error := by
  rintro stream archive s t rfl -
  obtain ⟨outcome, s', hcomes, hheld, hflushes⟩ := exists_comes_finish hsink stream.path s t
  refine ⟨fun _ ↦ ⟨(), outcome, s', fun _ ↦ iff_of_true trivial rfl, ?_, hheld, hflushes⟩,
    fun h ↦ absurd trivial h⟩
  cases outcome <;> exact hcomes

/-- A record agrees with an archive: it names the archive's hash and size, as far as it has any. -/
theorem agrees_ofBytes_iff (info : PathInfo) (archive : Bytes) :
    agrees info (.ofBytes archive) ↔
      (info.archiveHash = [] ∨ (ArchiveDigest.ofBytes archive).isNamedBy info.archiveHash) ∧
        ∀ n ∈ info.archiveSize, n.toNat = archive.length := by
  rw [agrees, Bool.and_eq_true, Bool.or_eq_true, List.isEmpty_iff]
  refine and_congr Iff.rfl ?_
  cases info.archiveSize with
  | none => simp
  | some n => simp [ArchiveDigest.size_ofBytes]

theorem finishes_streamArchiveHashed (hsink : view.Describes sink) (p : StorePath)
    (info : PathInfo) :
    Finishes (τ := τ) view p (fun archive ↦ agrees info (.ofBytes archive))
      (fun archive (d : ArchiveDigest) ↦ d.size = archive.length ∧ d.hash = Sha256.sum archive)
      fun stream ↦
        if agrees info stream.digest then do
          (sink.finish p).adapt .error
          return stream.digest
        else throw (.error (.archive p (.mismatch info.archiveHash stream.digest))) := by
  intro stream archive s t _ hdigest
  simp only [hdigest]
  obtain ⟨outcome, s', hcomes, hheld, hflushes⟩ := exists_comes_finish hsink p s t
  refine ⟨fun hagrees ↦ ⟨.ofBytes archive, outcome, s', fun d ↦ ?_, ?_, hheld, hflushes⟩,
    fun hagrees ↦ ⟨_, by rw [if_neg hagrees]; rfl⟩⟩
  · rw [← ArchiveDigest.size_ofBytes, ← ArchiveDigest.hash_ofBytes, ArchiveDigest.eq_iff]
  · rw [if_pos hagrees]
    cases outcome with
    | error e => exact hcomes.bind_error
    | ok _ => exact hcomes.bind rfl

/-! ## Transfers by name -/

theorem exists_comes_record (h : Handle (StateM τ)) (p : StorePath) (s : σ) (t : τ) :
    ∃ r : Except StoreError PathInfo,
      Comes (ExceptT.mk (liftM ((h.record p).adapt StreamFault.error).run)) s t
        (r.mapError .error) s ((h.engine.pathInfo p).run.run t).2 ∧
      (∀ info, r = .ok info ↔ ((h.engine.pathInfo p).run.run t).1 = .ok (some info)) ∧
      (((h.engine.pathInfo p).run.run t).1 = .ok none → r = .error (.notFound p)) := by
  obtain ⟨answer, t₁, hasked⟩ : ∃ answer t₁, (h.engine.pathInfo p).run.run t = (answer, t₁) :=
    ⟨_, _, rfl⟩
  have hrun : ((h.record p).adapt StreamFault.error).run.run t = ((match answer with
      | .error f => Except.error (StoreError.ofQuery .pathInfo p f)
      | .ok none => .error (StoreError.notFound p)
      | .ok (some info) => .ok info).mapError StreamFault.error, t₁) := by
    rw [ExceptT.run_adapt, record, ask, ExceptT.run_bind, ExceptT.run_adapt, StateT.run_map,
      StateT.run_bind, StateT.run_map, hasked]
    rcases answer with f | _ | info <;> rfl
  rw [hasked]
  refine ⟨_, .ofEngine hrun s, fun info ↦ ?_, ?_⟩
  · rcases answer with f | _ | found <;> simp
  · rintro rfl
    rfl

variable {name : Bytes} {p : StorePath}

/-- What a transfer with a digest comes to for a name that is a path. -/
theorem exists_comes_streamArchiveHashed (h : Handle (StateM τ)) (hsink : view.Describes sink)
    (hname : StorePath.ofBytes name = .ok p) (s : σ) (t : τ) :
    ∃ r s' t', Comes (h.streamArchiveHashed name sink) s t r s' t' ∧
      h.Transferred view (fun archive ↦ ∃ info t₁,
          (h.engine.pathInfo p).run.run t = (.ok (some info), t₁) ∧
          h.Sends ((h.engine.archive p).run t₁).1 archive ∧ view.Fits s archive ∧
          agrees info (.ofBytes archive))
        (fun archive d ↦ d.size = archive.length ∧ d.hash = Sha256.sum archive) s r s' ∧
      ∀ t₁, (h.engine.pathInfo p).run.run t = (.ok none, t₁) →
        r = .error (.error (.notFound p)) ∧ s' = s ∧ t' = t₁ := by
  obtain ⟨r, hcomes, hok, hnone⟩ := exists_comes_record h p s t
  rw [streamArchiveHashed, streamed, named, hname]
  cases r with
  | error e =>
    refine ⟨.error (.error e), s, ((h.engine.pathInfo p).run.run t).2, hcomes.bind_error,
      .of_failure rfl ?_ nofun, fun t₁ hrecord ↦ ?_⟩
    · rintro archive ⟨info, t₁, hrecord, -⟩
      exact nomatch (hok info).2 (congrArg Prod.fst hrecord)
    · rw [hrecord] at hnone ⊢
      rw [Except.error.inj (hnone rfl)]
      exact ⟨rfl, rfl, rfl⟩
  | ok info =>
    have hinfo := (hok info).1 rfl
    obtain ⟨r, s', t', hrest, htransferred⟩ := exists_transferred hsink p
      (finishes_streamArchiveHashed hsink p info) s ((h.engine.pathInfo p).run.run t).2
    refine ⟨r, s', t', hcomes.bind hrest, htransferred.congr fun archive ↦ ?_, fun t₁ hrecord ↦ ?_⟩
    · constructor
      · rintro ⟨info', t₁, hrecord, hall⟩
        rw [hrecord] at hinfo ⊢
        cases hinfo
        exact hall
      · exact fun hall ↦ ⟨info, _, Prod.ext hinfo rfl, hall⟩
    · rw [hrecord] at hinfo
      cases hinfo

/-- What a transfer without a digest comes to for a name that is a path. -/
theorem exists_comes_streamArchive (h : Handle (StateM τ)) (hsink : view.Describes sink)
    (hname : StorePath.ofBytes name = .ok p) (s : σ) (t : τ) :
    ∃ r s' t', Comes (h.streamArchive name sink) s t r s' t' ∧
      h.Transferred view (fun archive ↦ h.Sends ((h.engine.archive p).run t).1 archive ∧
          view.Fits s archive) (fun _ _ ↦ True) s r s' := by
  obtain ⟨r, s', t', hcomes, htransferred⟩ := exists_transferred hsink p
    (finishes_streamArchive hsink p) s t
  refine ⟨r, s', t', ?_, htransferred.congr fun archive ↦ by rw [and_true]⟩
  rw [streamArchive, stream, streamed, named, hname]
  exact hcomes

/-- A transfer with a digest certifies what it wrote. It gives a digest if and only if the path has
a record, the archive is sent and fits into the sink, the record agrees with it, and the flush
behind its last byte succeeds; the digest is that of the archive then. Otherwise it fails without a
flush, or with the failure of the flush. If the path has no record neither the engine nor the sink
is asked for more. A transfer without a digest does the same without a record. -/
theorem transfer_certifies (h : Handle (StateM τ)) (hsink : view.Describes sink) (name : Bytes)
    (s : σ) (t : τ) :
    (∃ r s' t', Comes (h.streamArchiveHashed name sink) s t r s' t' ∧
      h.Transferred view (fun archive ↦ ∃ p info t₁, StorePath.ofBytes name = .ok p ∧
          (h.engine.pathInfo p).run.run t = (.ok (some info), t₁) ∧
          h.Sends ((h.engine.archive p).run t₁).1 archive ∧ view.Fits s archive ∧
          (info.archiveHash = [] ∨
            (ArchiveDigest.ofBytes archive).isNamedBy info.archiveHash) ∧
          ∀ n ∈ info.archiveSize, n.toNat = archive.length)
        (fun archive d ↦ d.size = archive.length ∧ d.hash = Sha256.sum archive) s r s' ∧
      ∀ p t₁, StorePath.ofBytes name = .ok p → (h.engine.pathInfo p).run.run t = (.ok none, t₁) →
        r = .error (.error (.notFound p)) ∧ s' = s ∧ t' = t₁) ∧
    ∃ r s' t', Comes (h.streamArchive name sink) s t r s' t' ∧
      h.Transferred view (fun archive ↦ ∃ p, StorePath.ofBytes name = .ok p ∧
          h.Sends ((h.engine.archive p).run t).1 archive ∧ view.Fits s archive)
        (fun _ _ ↦ True) s r s' := by
  cases hname : StorePath.ofBytes name with
  | error e =>
    refine ⟨⟨.error (.error (.invalidPath e)), s, t, ?_, .of_failure rfl ?_ nofun, nofun⟩,
      .error (.error (.invalidPath e)), s, t, ?_, .of_failure rfl ?_ nofun⟩
    · rw [streamArchiveHashed, streamed, named, hname]
      rfl
    · rintro archive ⟨p, _, _, hp, -⟩
      cases hp
    · rw [streamArchive, stream, streamed, named, hname]
      rfl
    · rintro archive ⟨p, hp, -⟩
      cases hp
  | ok p =>
    constructor
    · obtain ⟨r, s', t', hcomes, htransferred, hnone⟩ :=
        exists_comes_streamArchiveHashed h hsink hname s t
      refine ⟨r, s', t', hcomes, htransferred.congr fun archive ↦ ?_, fun p' t₁ hp ↦ ?_⟩
      · simp only [Except.ok.injEq, agrees_ofBytes_iff]
        exact ⟨fun ⟨_, info, t₁, hp, hall⟩ ↦ ⟨info, t₁, hp ▸ hall⟩,
          fun ⟨info, t₁, hall⟩ ↦ ⟨p, info, t₁, rfl, hall⟩⟩
      · cases hp
        exact hnone t₁
    · obtain ⟨r, s', t', hcomes, htransferred⟩ := exists_comes_streamArchive h hsink hname s t
      refine ⟨r, s', t', hcomes, htransferred.congr fun archive ↦ ?_⟩
      simp only [Except.ok.injEq, exists_eq_left']

/-! ## A store of three bytes -/

/-- A producer that writes three bytes in two pieces. -/
def threeBytes : Producer (Except Fault Unit) :=
  .write [1, 2] fun _ ↦ .write [3] fun _ ↦ .done (.ok ())

theorem account_threeBytes : threeBytes.account 65536 = (.ok (), [1, 2, 3]) := by
  simp [threeBytes, Producer.account, Producer.recorded, Producer.chunked]

/-- An engine of a store whose archives are all these three bytes. -/
def threeByteEngine : Engine (StateM Unit) :=
  .fixed (fun p ↦ pure (some { PathInfo.plain p none [] with archiveSize := some 3 })) threeBytes

theorem transfer_of_threeBytes :
    (SinkView.bytewise (some 4)).Describes (m := StateM Unit) (.bytewise (some 4)) ∧
      ∃ r s', Comes ((ofEngine threeByteEngine).streamArchiveHashed (default : StorePath).toBytes
          (.bytewise (some 4))) ([], []) () r s' () ∧
        s'.1 = [1, 2, 3] ∧ ∃ outcome, s'.2 = [([1, 2, 3], outcome)] := by
  have hsink := SinkView.describes_bytewise (m := StateM Unit) (some 4)
  obtain ⟨⟨r, s', t', hcomes, htransferred, -⟩, -⟩ := transfer_certifies
    (ofEngine threeByteEngine) hsink (default : StorePath).toBytes ([], []) ()
  refine ⟨hsink, r, s', hcomes, htransferred.flushed [1, 2, 3] ?_⟩
  have hsends : (ofEngine threeByteEngine).Sends threeBytes [1, 2, 3] :=
    ⟨by decide, by decide, account_threeBytes⟩
  exact ⟨default, _, (), StorePath.ofBytes_eq_ok_iff.2 rfl, rfl, hsends, by rintro k ⟨⟩; decide,
    .inl rfl, by rintro n ⟨⟩; rfl⟩

/-- Through a channel for more messages than a channel can keep, a transfer neither succeeds nor
fails. -/
theorem transfer_through_oversized_channel :
    ∃ message, Comes (((ofEngine threeByteEngine).withChannelCapacity
        0x2000000000000000).streamArchiveHashed (default : StorePath).toBytes (.bytewise (some 4)))
      ([], []) () (.error (.panicked message)) ([], []) () := by
  refine ⟨text "a semaphore may not have more than MAX_PERMITS permits", ?_⟩
  rw [streamArchiveHashed, streamed, named, StorePath.ofBytes_eq_ok_iff.2 rfl]
  rfl

end Handle

end NixStore
