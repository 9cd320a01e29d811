import NixStore.Proofs.Stream.Transfer

/-!
# Reading an archive in three ways

An archive is read as a stream of chunks, through buffers, or by a sink that it is written to. Each
cuts the same bytes at other places: the producer's chunks, the sizes of the buffers, the pieces
that the sink takes. What all three are compared with does not know of any cut, the bytes of the
stream and how it ends.

A read takes some of the bytes that are left or comes to the end, and leaves the rest as it is. So
reading into buffers is told by the bytes that are left, whichever chunk they are in, and each
buffer brings the end nearer. What a sink takes was already told by its room for all the bytes.
-/

namespace NixStore

namespace ArchiveStream

/-! ## Reading through buffers -/

theorem next_cases (s : ArchiveStream) :
    (∃ chunk rest, s.next = (some (.ok chunk), rest) ∧ s.bytes = chunk ++ rest.bytes ∧
      s.outcome = rest.outcome ∧ rest.waiting.length < s.waiting.length) ∨
    (∃ e rest, s.next = (some (.error e), rest) ∧ s.bytes = [] ∧ s.outcome = .error e) ∨
    ∃ rest, s.next = (none, rest) ∧ s.bytes = [] ∧ s.outcome = .ok () := by
  obtain ⟨path, waiting, finished⟩ := s
  cases finished with
  | true => exact .inr (.inr ⟨_, rfl, rfl, rfl⟩)
  | false =>
    rcases waiting with _ | ⟨_ | _ | cause, rest⟩
    · exact .inr (.inl ⟨_, _, rfl, rfl, rfl⟩)
    · exact .inl ⟨_, _, rfl, rfl, rfl, Nat.lt_succ_self _⟩
    · exact .inr (.inr ⟨_, rfl, rfl, rfl⟩)
    · exact .inr (.inl ⟨_, _, rfl, rfl, rfl⟩)

end ArchiveStream

namespace ArchiveReader

theorem fill_cases (s : ArchiveStream) {bound : Nat} (h : s.waiting.length < bound) :
    (∃ b chunk rest, fill s bound = (.ok (b :: chunk), rest) ∧
      s.bytes = b :: chunk ++ rest.bytes ∧ s.outcome = rest.outcome) ∨
    (∃ e rest, fill s bound = (.error e, rest) ∧ s.bytes = [] ∧ s.outcome = .error e) ∨
    ∃ rest, fill s bound = (.ok [], rest) ∧ s.bytes = [] ∧ s.outcome = .ok () := by
  induction bound generalizing s with
  | zero => exact absurd h (Nat.not_lt_zero _)
  | succ bound ih =>
    obtain ⟨chunk, rest, hnext, hbytes, houtcome, hless⟩ | ⟨e, rest, hnext, hbytes, houtcome⟩ |
      ⟨rest, hnext, hbytes, houtcome⟩ := s.next_cases
    · cases chunk with
      | nil =>
        rw [fill, hnext, hbytes, houtcome]
        exact ih rest (Nat.lt_of_lt_of_le hless (Nat.le_of_lt_succ h))
      | cons b chunk =>
        refine .inl ⟨b, chunk, rest, ?_, hbytes, houtcome⟩
        rw [fill, hnext]
    · refine .inr (.inl ⟨e, rest, ?_, hbytes, houtcome⟩)
      rw [fill, hnext]
    · refine .inr (.inr ⟨rest, ?_, hbytes, houtcome⟩)
      rw [fill, hnext]

def bytes (r : ArchiveReader) : Bytes := r.rest ++ r.stream.bytes

theorem read_cases (r : ArchiveReader) {n : Nat} (hn : 0 < n) :
    (∃ b piece rest, r.read n = (.ok (b :: piece), rest) ∧ r.bytes = b :: piece ++ rest.bytes ∧
      r.stream.outcome = rest.stream.outcome) ∨
    (∃ e rest, r.read n = (.error e, rest) ∧ r.bytes = [] ∧ r.stream.outcome = .error e) ∨
    ∃ rest, r.read n = (.ok [], rest) ∧ r.bytes = [] ∧ r.stream.outcome = .ok () := by
  obtain ⟨n, rfl⟩ := Nat.exists_eq_add_one.2 hn
  obtain ⟨rest, stream⟩ := r
  cases rest with
  | cons b rest =>
    refine .inl ⟨b, rest.take n, ⟨rest.drop n, stream⟩, rfl, ?_, rfl⟩
    simp only [bytes, List.cons_append, ← List.append_assoc, List.take_append_drop]
  | nil =>
    obtain ⟨b, chunk, s, hfill, hbytes, houtcome⟩ | ⟨e, s, hfill, hbytes, houtcome⟩ |
      ⟨s, hfill, hbytes, houtcome⟩ := fill_cases stream (Nat.lt_succ_self _)
    · refine .inl ⟨b, chunk.take n, ⟨chunk.drop n, s⟩, ?_, ?_, houtcome⟩
      · rw [read, hfill]
        rfl
      · simp only [bytes, List.nil_append, hbytes, List.cons_append, ← List.append_assoc,
          List.take_append_drop]
    · refine .inr (.inl ⟨e, ⟨[], s⟩, ?_, hbytes, houtcome⟩)
      rw [read, hfill]
    · refine .inr (.inr ⟨⟨[], s⟩, ?_, hbytes, houtcome⟩)
      rw [read, hfill]
      rfl

/-- What reading into buffers comes to: a first part of the bytes, at least one for each buffer, or
all of them and how the archive ends. -/
structure ReadsAs (bytes : Bytes) (outcome : Except StoreError Unit) (buffers : Nat)
    (found : Bytes × Option (Except StoreError Unit)) : Prop where
  starts : found.1 <+: bytes
  ends : ∀ result, found.2 = some result → found.1 = bytes ∧ result = outcome
  goes_on : found.2 = none → buffers ≤ found.1.length

theorem ReadsAs.eq_of_lt {bytes : Bytes} {outcome : Except StoreError Unit} {buffers : Nat}
    {found : Bytes × Option (Except StoreError Unit)} (h : ReadsAs bytes outcome buffers found)
    (hlt : bytes.length < buffers) : found = (bytes, some outcome) := by
  obtain ⟨read, ending⟩ := found
  cases ending with
  | none =>
    have hshort := h.starts.length_le
    have hlong := h.goes_on rfl
    omega
  | some result =>
    obtain ⟨rfl, rfl⟩ := h.ends result rfl
    rfl

theorem readsAs_readEach (r : ArchiveReader) {sizes : List Nat} (h : ∀ n ∈ sizes, 0 < n) :
    ReadsAs r.bytes r.stream.outcome sizes.length (r.readEach sizes) := by
  induction sizes generalizing r with
  | nil => exact ⟨List.nil_prefix, fun _ hr ↦ (by cases hr), fun _ ↦ Nat.le_refl 0⟩
  | cons n sizes ih =>
    obtain ⟨hn, hsizes⟩ := List.forall_mem_cons.1 h
    obtain ⟨b, piece, rest, hread, hbytes, houtcome⟩ | ⟨e, rest, hread, hbytes, houtcome⟩ |
      ⟨rest, hread, hbytes, houtcome⟩ := r.read_cases hn
    · have hrest := ih rest hsizes
      rw [readEach, hread, hbytes, houtcome]
      refine ⟨(List.prefix_append_right_inj _).2 hrest.starts, fun result hresult ↦ ?_,
        fun hnone ↦ ?_⟩
      · obtain ⟨hall, hlast⟩ := hrest.ends result hresult
        exact ⟨congrArg (b :: piece ++ ·) hall, hlast⟩
      · have hle := hrest.goes_on hnone
        simp only [List.length_cons, List.length_append]
        omega
    · rw [readEach, hread, hbytes, houtcome]
      exact ⟨List.nil_prefix, fun _ hr ↦ ⟨rfl, (Option.some.inj hr).symm⟩, fun hr ↦ by cases hr⟩
    · rw [readEach, hread, hbytes, houtcome]
      exact ⟨List.nil_prefix, fun _ hr ↦ ⟨rfl, (Option.some.inj hr).symm⟩, fun hr ↦ by cases hr⟩

end ArchiveReader

namespace Handle

variable {σ τ : Type}

/-! ## The three ways -/

/-- What writing an archive to a sink came to. If there is room for all its bytes and it ends well,
all depends on the flush behind them; and else the sink is not flushed. -/
structure Written (view : SinkView σ) (stream : ArchiveStream) (s : σ)
    (r : Except StreamFault Unit) (s' : σ) : Prop where
  held_eq : view.held s' = view.held s ++ view.fitting s stream.bytes
  flushed : view.Fits s stream.bytes → stream.outcome = .ok () → ∃ flushed,
    view.flushes s' = view.flushes s ++ [(view.held s', flushed)] ∧
      r = flushed.mapError fun e ↦ .error (.archive stream.path (.sink e))
  failed : view.Fits s stream.bytes → ∀ e, stream.outcome = .error e →
    view.flushes s' = view.flushes s ∧ r = .error (.error e)
  cut : ¬view.Fits s stream.bytes → view.flushes s' = view.flushes s ∧
    ∃ e, r = .error (.error (.archive stream.path (.sink e)))

theorem exists_written {view : SinkView σ} {sink : Sink (StateT σ (StateM τ))}
    (hsink : view.Describes sink) (stream : ArchiveStream) (s : σ) (t : τ) :
    ∃ r s', Comes (do
        (stream.copyTo sink).adapt StreamFault.error
        (sink.finish stream.path).adapt .error) s t r s' t ∧ Written view stream s r s' := by
  obtain ⟨r, s₁, hrun, hcopied⟩ := hsink.copyTo stream s
  have hcopy : Comes (stream.copyTo sink) s t r s₁ t := .ofSink hrun t
  have hflushes := hcopied.took.flushes_eq
  by_cases hfits : view.Fits s stream.bytes
  · have hr := hcopied.complete hfits
    cases hend : stream.outcome with
    | error e =>
      rw [hend] at hr
      subst hr
      refine ⟨_, s₁, (hcopy.adapt StreamFault.error).bind_error, hcopied.took.held_eq,
        fun _ hok ↦ ?_, fun _ e' he' ↦ ⟨hflushes, ?_⟩, fun hfull ↦ absurd hfits hfull⟩
      · cases hend.symm.trans hok
      · rw [Except.error.inj (hend.symm.trans he')]
    | ok _ =>
      rw [hend] at hr
      subst hr
      obtain ⟨flushed, s', hfinish, hheld, hflushed⟩ := exists_comes_finish hsink stream.path s₁ t
      refine ⟨_, s', (hcopy.adapt StreamFault.error).bind hfinish,
        hheld.trans hcopied.took.held_eq, fun _ _ ↦ ⟨flushed, ?_, rfl⟩, fun _ e he ↦ ?_,
        fun hfull ↦ absurd hfits hfull⟩
      · rw [hflushed, hflushes, hheld]
      · cases hend.symm.trans he
  · obtain ⟨e, rfl⟩ := hcopied.cut hfits
    exact ⟨_, s₁, (hcopy.adapt StreamFault.error).bind_error, hcopied.took.held_eq,
      fun hall ↦ absurd hall hfits, fun hall ↦ absurd hall hfits, fun _ ↦ ⟨hflushes, e, rfl⟩⟩

/-- **The three ways of reading an archive agree.** They start alike. Read through buffers of
whatever sizes, the archive has the bytes of the stream and ends as the stream does. A sink that it
is written to holds all of them, or the first part that it has room for; the sink is flushed behind
the last one if the archive ends well, and else the error is the stream's. -/
theorem readings_agree (h : Handle (StateM τ)) {view : SinkView σ}
    {sink : Sink (StateT σ (StateM τ))} (hsink : view.Describes sink) (name : Bytes) (s : σ)
    (t : τ) :
    ∃ started t' r s', (h.stream true none name).run.run t = (started, t') ∧
      (h.reader true name).run.run t = (started.map .ofStream, t') ∧
      Comes (h.streamArchive name sink) s t r s' t' ∧
      match started with
      | .error f => r = .error f ∧ s' = s
      | .ok stream =>
        (∀ sizes : List Nat, (∀ n ∈ sizes, 0 < n) → ArchiveReader.ReadsAs stream.bytes
          stream.outcome sizes.length ((ArchiveReader.ofStream stream).readEach sizes)) ∧
        Written view stream s r s' := by
  obtain ⟨started, t', hstream⟩ : ∃ started t',
      (h.stream true none name).run.run t = (started, t') := ⟨_, _, rfl⟩
  have hreader : (h.reader true name).run.run t = (started.map .ofStream, t') := by
    rw [reader, ExceptT.run_bind, StateT.run_bind, hstream]
    cases started <;> rfl
  have hstarted := Comes.ofEngine hstream s
  cases started with
  | error f => exact ⟨_, t', .error f, s, hstream, hreader, hstarted.bind_error, rfl, rfl⟩
  | ok stream =>
    obtain ⟨r, s', hcomes, hwritten⟩ := exists_written hsink stream s t'
    exact ⟨_, t', r, s', hstream, hreader, hstarted.bind hcomes, fun sizes hsizes ↦
      (ArchiveReader.ofStream stream).readsAs_readEach hsizes, hwritten⟩

/-- An archive that is torn off behind its first byte. -/
private def torn : Producer (Except Fault Unit) :=
  .write [1] fun _ ↦ .flush fun _ ↦ .write [2, 3] fun _ ↦ .done (.error (.panicked none))

private def tearing : Engine (StateM Unit) := .fixed (fun _ ↦ pure none) torn

theorem readings_of_torn :
    (SinkView.bytewise none).Describes (m := StateM Unit) (.bytewise none) ∧ ∃ stream,
      ((ofEngine tearing).reader true (default : StorePath).toBytes).run.run () =
        (.ok (.ofStream stream), ()) ∧
      (ArchiveReader.ofStream stream).readEach [7, 7] =
        ([1], some (.error (.archive default (.panicked none)))) ∧
      Comes ((ofEngine tearing).streamArchive (default : StorePath).toBytes (.bytewise none))
        ([], []) () (.error (.error (.archive default (.panicked none)))) ([1], []) () := by
  have hsink := SinkView.describes_bytewise (m := StateM Unit) none
  obtain ⟨started, t', r, s', hstream, hreader, hcomes, hagree⟩ :=
    readings_agree (ofEngine tearing) hsink (default : StorePath).toBytes ([], []) ()
  have hsent : ((torn.transmit 65536).run none).2 = [.chunk [1], .failed (.panicked none)] := by
    simp [torn, Producer.transmit, Producer.chunked, Sender.emit]
  have hstarted : started = .ok (.ofMessages default [.chunk [1], .failed (.panicked none)]) := by
    rw [stream, streamed, named, StorePath.ofBytes_eq_ok_iff.2 rfl] at hstream
    rw [← hsent]
    exact congrArg Prod.fst (hstream.symm.trans (run_start (ofEngine tearing) default ()))
  subst hstarted
  obtain ⟨hreads, hwritten⟩ := hagree
  obtain ⟨hflushes, hr⟩ := hwritten.failed (fun _ hk ↦ by cases hk) _ rfl
  have hs : s' = ([1], []) := Prod.ext hwritten.held_eq hflushes
  subst hr hs
  have hread := (hreads [7, 7] (by decide)).eq_of_lt (by decide)
  exact ⟨hsink, _, hreader, hread, hcomes⟩

end Handle

end NixStore
