import Mathlib.Logic.Equiv.Prod
import NixStore.Proofs.Handle.Search
import NixStore.Proofs.Stream.Transfer

/-!
# Errors at the boundary

No request is told that it succeeded when a call of the engine that it made has failed, and every
error names what was asked about. A request is run on an engine and on the engine observed, and the
calls that were written down are compared with its result. The calls of a question are over when it
is answered. The producer of an archive fails later, while its chunks are taken; what is carried
from the start of a transfer to its end is that the stream fails then.

Names are read before anything else, so bytes that are not a name come to nothing but an error.
-/

namespace NixStore

namespace Handle

variable {σ τ : Type}

/-! ## Programs with a sink -/

section

variable {ρ ε α β : Type} (e : ρ ≃ σ × τ)

/-- A program on a sink and an engine, as a program on the two of them together. -/
def together (x : ExceptT ε (StateT σ (StateM τ)) α) : ExceptT ε (StateM ρ) α :=
  ExceptT.mk <| StateT.mk fun both ↦
    let ((r, s), t) := (x.run.run (e both).1).run (e both).2
    (r, e.symm (s, t))

variable {e}

theorem run_together {x : ExceptT ε (StateT σ (StateM τ)) α} {s s' : σ} {t t' : τ}
    {r : Except ε α} :
    (together e x).run.run (e.symm (s, t)) = (r, e.symm (s', t')) ↔ Comes x s t r s' t' := by
  rw [together, ExceptT.run_mk, StateT.run_mk, e.apply_symm_apply, Comes]
  obtain ⟨⟨r₁, s₁⟩, t₁⟩ := (x.run.run s).run t
  rw [Prod.mk.injEq, e.symm.injective.eq_iff, Prod.mk.injEq, Prod.mk.injEq, Prod.mk.injEq,
    and_assoc]

theorem together_bind (x : ExceptT ε (StateT σ (StateM τ)) α)
    (f : α → ExceptT ε (StateT σ (StateM τ)) β) :
    together e (x >>= f) = together e x >>= fun a ↦ together e (f a) := by
  refine ExceptT.ext (StateT.ext fun both ↦ ?_)
  obtain ⟨⟨s, t⟩, rfl⟩ := e.symm.surjective both
  obtain ⟨r, s₁, t₁, hx⟩ : ∃ r s₁ t₁, Comes x s t r s₁ t₁ := ⟨_, _, _, rfl⟩
  rw [ExceptT.run_bind, StateT.run_bind, run_together.2 hx]
  cases r with
  | error e => exact run_together.2 hx.bind_error
  | ok a =>
    obtain ⟨r, s', t', hf⟩ : ∃ r s' t', Comes (f a) s₁ t₁ r s' t' := ⟨_, _, _, rfl⟩
    exact (run_together.2 (hx.bind hf)).trans (run_together.2 hf).symm

end

/-- A program on a sink and an engine does the same on the engine observed, and its new calls and
its result are related. -/
def Mirrors {ε α : Type} (x : ExceptT ε (StateT σ (StateM τ)) α)
    (y : ExceptT ε (StateT σ (StateM (τ × List EngineCall))) α)
    (holds : List EngineCall → Except ε α → Prop) : Prop :=
  Logs (together (.refl _) x) (together (.prodAssoc σ τ _) y) holds

section

variable {ε α β : Type} {x : ExceptT ε (StateT σ (StateM τ)) α}
  {y : ExceptT ε (StateT σ (StateM (τ × List EngineCall))) α}
  {f : α → ExceptT ε (StateT σ (StateM τ)) β}
  {g : α → ExceptT ε (StateT σ (StateM (τ × List EngineCall))) β}
  {holds : List EngineCall → Except ε α → Prop} {both : List EngineCall → Except ε β → Prop}

theorem mirrors_iff : Mirrors x y holds ↔ ∀ s t calls, ∃ r s' t' new, Comes x s t r s' t' ∧
    Comes y s (t, calls) r s' (t', calls ++ new) ∧ holds new r := by
  constructor
  · intro h s t calls
    obtain ⟨r, ⟨s', t'⟩, new, hx, hy, hnew⟩ := h (s, t) calls
    exact ⟨r, s', t', new, run_together.1 hx, run_together.1 hy, hnew⟩
  · rintro h ⟨s, t⟩ calls
    obtain ⟨r, s', t', new, hx, hy, hnew⟩ := h s t calls
    exact ⟨r, (s', t'), new, run_together.2 hx, run_together.2 hy, hnew⟩

namespace Mirrors

theorem pure {a : α} (h : holds [] (.ok a)) :
    Mirrors (σ := σ) (τ := τ) (pure a) (Pure.pure a) holds :=
  Logs.pure h

theorem throw {e : ε} (h : holds [] (.error e)) :
    Mirrors (σ := σ) (τ := τ) (throw e) (MonadExcept.throw e) holds :=
  Logs.throw h

theorem bind (h : Mirrors x y holds)
    (herror : ∀ new e, holds new (.error e) → both new (.error e))
    (hok : ∀ new a, holds new (.ok a) → Mirrors (f a) (g a) fun new' r ↦ both (new ++ new') r) :
    Mirrors (x >>= f) (y >>= g) both := by
  rw [Mirrors, together_bind, together_bind]
  exact Logs.bind h herror hok

theorem mono {holds' : List EngineCall → Except ε α → Prop} (h : Mirrors x y holds)
    (himp : ∀ calls r, holds calls r → holds' calls r) : Mirrors x y holds' :=
  Logs.mono h himp

theorem ofEngine {x : ExceptT ε (StateM τ) α} {y : ExceptT ε (StateM (τ × List EngineCall)) α}
    (h : Logs x y holds) :
    Mirrors (ExceptT.mk (liftM x.run) : ExceptT ε (StateT σ (StateM τ)) α)
      (ExceptT.mk (liftM y.run)) holds := by
  refine mirrors_iff.2 fun s t calls ↦ ?_
  obtain ⟨r, t', new, hx, hy, hnew⟩ := h t calls
  exact ⟨r, s, t', new, .ofEngine hx s, .ofEngine hy s, hnew⟩

theorem ofSink (h : ∀ s, ∃ r s', x.run.run s = Pure.pure (r, s') ∧ y.run.run s = Pure.pure (r, s') ∧
    holds [] r) : Mirrors x y holds := by
  refine mirrors_iff.2 fun s t calls ↦ ?_
  obtain ⟨r, s', hx, hy, hr⟩ := h s
  refine ⟨r, s', t, [], .ofSink hx t, ?_, hr⟩
  rw [List.append_nil]
  exact .ofSink hy (t, calls)

end Mirrors

end

/-! ## Results -/

/-- What a request for a subject comes to: an error names the subject, and there is one if a call
has failed. -/
structure Translated {α : Type} (chunkSize : Nat) (subject : Text) (calls : List EngineCall)
    (r : Except StreamFault α) : Prop where
  names : ∀ e, r = .error (.error e) → e.subject? = some subject
  fails : ∀ call ∈ calls, ∀ f, call.fault? chunkSize = some f → ∃ e, r = .error (.error e)

namespace Translated

variable {α β : Type} {chunkSize : Nat} {subject : Text} {calls calls' : List EngineCall}

theorem ok (a : α) : Translated chunkSize subject [] (.ok a) where
  names _ he := by cases he
  fails _ hcall := absurd hcall List.not_mem_nil

theorem error {e : StoreError} (h : e.subject? = some subject) :
    Translated (α := α) chunkSize subject [] (.error (.error e)) where
  names e' he := by
    cases he
    exact h
  fails _ hcall := absurd hcall List.not_mem_nil

theorem panicked (message : Text) :
    Translated (α := α) chunkSize subject [] (.error (.panicked message)) where
  names _ he := by cases he
  fails _ hcall := absurd hcall List.not_mem_nil

theorem stop {f : StreamFault}
    (h : Translated chunkSize subject calls (.error f : Except StreamFault α)) :
    Translated chunkSize subject calls (.error f : Except StreamFault β) where
  names e he := h.names e (congrArg Except.error (Except.error.inj he))
  fails call hcall f' hf' := by
    obtain ⟨e, he⟩ := h.fails call hcall f' hf'
    exact ⟨e, congrArg Except.error (Except.error.inj he)⟩

theorem append {a : α} {r : Except StreamFault β} (h : Translated chunkSize subject calls (.ok a))
    (h' : Translated chunkSize subject calls' r) :
    Translated chunkSize subject (calls ++ calls') r where
  names := h'.names
  fails call hcall f hf := by
    rcases List.mem_append.1 hcall with hcall | hcall
    · obtain ⟨e, he⟩ := h.fails call hcall f hf
      cases he
    · exact h'.fails call hcall f hf

theorem of_reports {own : Fault → Prop} {r : Except Fault α} {translate : Fault → StoreError}
    (h : Engine.Reports chunkSize own calls r)
    (htranslate : ∀ f, (translate f).subject? = some subject) :
    Translated chunkSize subject calls ((r.mapError translate).mapError .error) where
  names e he := by
    cases r with
    | ok a => cases he
    | error f =>
      cases he
      exact htranslate f
  fails call hcall f hf := by
    rw [h.fails call hcall f hf]
    exact ⟨translate f, rfl⟩

end Translated

/-! ## Questions -/

section

variable (h : Handle (StateM τ)) {chunkSize : Nat} {subject : Text} {α : Type}

/-- A question whose failures are translated, and what is made of its answer. -/
theorem logs_translated {own : Fault → Prop} {question : ExceptT Fault (StateM τ) α}
    {question' : ExceptT Fault (StateM (τ × List EngineCall)) α} {translate : Fault → StoreError}
    (hquestion : Engine.Traced chunkSize own question question')
    (htranslate : ∀ f, (translate f).subject? = some subject) :
    Logs (question.adapt translate) (question'.adapt translate)
      fun new r ↦ Translated chunkSize subject new (r.mapError .error) :=
  hquestion.adapt translate fun _ _ hreports ↦ .of_reports hreports htranslate

theorem mirrors_asks {question : ExceptT StoreError (StateM τ) α}
    {question' : ExceptT StoreError (StateM (τ × List EngineCall)) α}
    (hquestion : Logs question question'
      fun new r ↦ Translated chunkSize subject new (r.mapError .error)) :
    Mirrors (asks (n := StateT σ (StateM τ)) question) (asks question')
      (Translated chunkSize subject) := by
  refine (Mirrors.ofEngine (hquestion.adapt StreamFault.error fun _ _ h ↦ h)).bind
    (fun _ _ ↦ Translated.stop) fun new a hnew ↦ .pure ?_
  exact hnew.append (.ok ())

theorem logs_record (p : StorePath) :
    Logs (h.record p) (h.observed.record p)
      fun new r ↦ Translated h.chunkSize p.text new (r.mapError .error) := by
  refine (logs_translated (Engine.traced_observe h.chunkSize (fun _ ↦ True) (.pathInfo p)
    (h.engine.pathInfo p)) (StoreError.subject?_ofQuery .pathInfo p)).bind
    (fun _ _ ↦ Translated.stop) fun new record hnew ↦ ?_
  cases record with
  | none => exact .throw (hnew.append (.error rfl))
  | some info => exact .pure (hnew.append (.ok info))

theorem logs_closure (policy : ClosurePolicy) (root : StorePath) :
    Logs (h.closure root.toBytes policy) (h.observed.closure root.toBytes policy)
      fun new r ↦ Translated h.chunkSize root.text new (r.mapError .error) := by
  rw [closure, closure, named_toBytes, named_toBytes, pure_bind, pure_bind]
  exact (logs_translated (Engine.traced_closure h.engine policy h.chunkSize root)
    (StoreError.subject?_ofQuery .closure root)).bind
    (fun _ _ ↦ Translated.stop) fun _ _ hnew ↦ .pure (hnew.append (.ok _))

end

/-! ## Starting an archive -/

/-- What the start of something that fails later comes to: its failure names the subject, and there
is one if a call has failed. -/
structure Started {α : Type} (failure : α → Option StoreError) (chunkSize : Nat) (subject : Text)
    (calls : List EngineCall) (r : Except StreamFault α) : Prop where
  broken : ∀ f, r = .error f → Translated chunkSize subject calls r
  names : ∀ a, r = .ok a → ∀ e, failure a = some e → e.subject? = some subject
  fails : ∀ a, r = .ok a → ∀ call ∈ calls, ∀ f, call.fault? chunkSize = some f →
    (failure a).isSome

theorem Started.of_error {α : Type} {failure : α → Option StoreError} {chunkSize : Nat}
    {subject : Text} {calls : List EngineCall} {f : StreamFault}
    (h : Translated (α := α) chunkSize subject calls (.error f)) :
    Started failure chunkSize subject calls (.error f) where
  broken _ _ := h
  names _ ha := by cases ha
  fails _ ha := by cases ha

theorem Started.of_ok {α : Type} {failure : α → Option StoreError} {chunkSize : Nat}
    {subject : Text} {calls : List EngineCall} {a : α}
    (hnames : ∀ e, failure a = some e → e.subject? = some subject)
    (hfails : ∀ call ∈ calls, ∀ f, call.fault? chunkSize = some f → (failure a).isSome) :
    Started failure chunkSize subject calls (.ok a) where
  broken _ hf := by cases hf
  names b hb := by
    cases hb
    exact hnames
  fails b hb := by
    cases hb
    exact hfails

theorem subject?_ending {path : StorePath} {last : Option Message} {e : StoreError}
    (h : ArchiveStream.ending path last = some e) : e.subject? = some path.text := by
  rcases last with _ | _ | _ | cause
  · cases h
    rfl
  · cases h
    rfl
  · cases h
  · cases h
    exact StoreError.subject?_ofArchive path cause

theorem subject?_failure {s : ArchiveStream} {e : StoreError} (h : s.failure = some e) :
    e.subject? = some s.path.text := by
  rw [ArchiveStream.failure] at h
  split at h
  · cases h
  · exact subject?_ending h

theorem logs_start (h : Handle (StateM τ)) (p : StorePath) :
    Logs (h.start true none p) (h.observed.start true none p) fun new r ↦
      Started (·.failure) h.chunkSize p.text new r ∧
        ∀ stream, r = .ok stream → stream.path = p := by
  intro t calls
  rw [run_start, run_start]
  -- the engine is asked only if neither the channel nor the chunks are too large to be made
  by_cases hcapacity : ArchiveStream.maxCapacity < h.channelCapacity
  · refine ⟨_, t, [], if_pos hcapacity, ?_, .of_error (.panicked _), fun _ hr ↦ by cases hr⟩
    rw [List.append_nil]
    exact if_pos hcapacity
  rw [if_neg hcapacity, if_neg (c := h.observed.channelCapacity > _) hcapacity]
  by_cases hsize : ArchiveStream.maxChunkSize < h.chunkSize
  · refine ⟨_, t, [], if_pos hsize, ?_, .of_ok (fun e he ↦ subject?_failure he)
      (fun _ hcall ↦ absurd hcall List.not_mem_nil), fun _ hr ↦ by cases hr; rfl⟩
    rw [List.append_nil]
    exact if_pos hsize
  · refine ⟨_, _, [.archived p ((h.engine.archive p).run t).1], if_neg hsize, if_neg hsize,
      .of_ok (fun e he ↦ subject?_failure he) (fun call hcall f hf ↦ ?_),
      fun _ hr ↦ by cases hr; rfl⟩
    rw [List.mem_singleton.1 hcall, EngineCall.fault?, Fault.of?_eq_some, ← Producer.account_fst]
      at hf
    obtain ⟨chunks, hrun, -⟩ := ((h.engine.archive p).run t).1.run_transmit h.chunkSize
    rw [hrun, (Channel.chunks_and_failure p chunks (Channel.isTerminal_lastMessage _)).2, hf]
    rfl

theorem logs_stream (h : Handle (StateM τ)) (p : StorePath) :
    Logs (h.stream true none p.toBytes) (h.observed.stream true none p.toBytes) fun new r ↦
      Started (·.failure) h.chunkSize p.text new r ∧
        ∀ stream, r = .ok stream → stream.path = p := by
  rw [stream, streamed, named_toBytes, stream, streamed, named_toBytes]
  exact logs_start h p

theorem logs_reader (h : Handle (StateM τ)) (p : StorePath) :
    Logs (h.reader true p.toBytes) (h.observed.reader true p.toBytes)
      (Started (·.readToEnd.2) h.chunkSize p.text) := by
  refine (logs_stream h p).bind (fun _ f hnew ↦ .of_error (hnew.1.broken f rfl).stop)
    fun new s hnew ↦ .pure ?_
  rw [List.append_nil]
  exact .of_ok (hnew.1.names s rfl) (hnew.1.fails s rfl)

theorem mirrors_drains {α : Type} {failure : α → Option StoreError}
    {start : ExceptT StreamFault (StateM τ) α}
    {start' : ExceptT StreamFault (StateM (τ × List EngineCall)) α} {chunkSize : Nat}
    {subject : Text} (hstart : Logs start start' (Started failure chunkSize subject)) :
    Mirrors (drains (n := StateT σ (StateM τ)) failure start) (drains failure start')
      (Translated chunkSize subject) := by
  refine (Mirrors.ofEngine hstart).bind (fun _ f hnew ↦ (hnew.broken f rfl).stop)
    fun new a hnew ↦ ?_
  have hnames := hnew.names a rfl
  have hfails := hnew.fails a rfl
  cases hfailure : failure a with
  | none =>
    refine .pure ⟨fun _ he ↦ ?_, fun call hcall f hf ↦ ?_⟩
    · cases he
    · rw [List.append_nil] at hcall
      have hfailed := hfails call hcall f hf
      rw [hfailure] at hfailed
      cases hfailed
  | some e =>
    refine .throw ⟨fun e' he' ↦ ?_, fun _ _ _ _ ↦ ⟨e, rfl⟩⟩
    cases he'
    exact hnames e hfailure

/-! ## Sinks -/

theorem exists_run_deliver (sink : Sink (StateM σ)) (zero : IoError) (data : Bytes) (s : σ) :
    ∃ r s', ∀ {m : Type → Type} [Monad m] [LawfulMonad m],
      ((sink.inside m).deliver zero data).run s = pure (r, s') := by
  induction data using Sink.deliver.induct generalizing s with
  | case1 => exact ⟨.ok (), s, by intros; rw [Sink.deliver]; rfl⟩
  | case2 b rest ih =>
    obtain ⟨r, s₁, hwrite⟩ : ∃ r s₁, (sink.write (b :: rest)).run s = (r, s₁) := ⟨_, _, rfl⟩
    have hinside : ∀ {m : Type → Type} [Monad m],
        ((sink.inside m).write (b :: rest)).run s = pure (r, s₁) := congrArg pure hwrite
    rcases r with e | _ | n
    · refine ⟨.error e, s₁, ?_⟩
      intro m _ _
      rw [Sink.deliver, StateT.run_bind, hinside, pure_bind]
      rfl
    · refine ⟨.error zero, s₁, ?_⟩
      intro m _ _
      rw [Sink.deliver, StateT.run_bind, hinside, pure_bind]
      rfl
    · obtain ⟨r, s', hrest⟩ := ih n s₁
      refine ⟨r, s', ?_⟩
      intro m _ _
      rw [Sink.deliver, StateT.run_bind, hinside, pure_bind]
      exact hrest

/-- Copying an archive comes to the same wherever the sink is. An error is for the path, and there
is one if the archive is not complete. -/
theorem exists_run_deliverMessages (sink : Sink (StateM σ)) (path : StorePath)
    (messages : List Message) (s : σ) :
    ∃ r s', (∀ {m : Type → Type} [Monad m] [LawfulMonad m],
        ((sink.inside m).deliverMessages path messages).run.run s = pure (r, s')) ∧
      (∀ e, r = .error e → e.subject? = some path.text) ∧
      ((ArchiveStream.ending path (messages.find? Message.isTerminal)).isSome →
        ∃ e, r = .error e) := by
  induction messages generalizing s with
  | nil =>
    refine ⟨.error (.archive path .unfinished), s, rfl, fun e he ↦ ?_, fun _ ↦ ⟨_, rfl⟩⟩
    cases he
    rfl
  | cons message messages ih =>
    cases message with
    | chunk bytes =>
      obtain ⟨r, s₁, hchunk⟩ := exists_run_deliver sink .zeroWrite bytes s
      cases r with
      | error e =>
        refine ⟨.error (.archive path (.sink e)), s₁, ?_, fun e' he' ↦ ?_, fun _ ↦ ⟨_, rfl⟩⟩
        · intro m _ _
          rw [Sink.deliverMessages, ExceptT.run_bind, ExceptT.run_liftM, StateT.run_bind,
            StateT.run_map, hchunk, map_pure, pure_bind]
          rfl
        · cases he'
          rfl
      | ok _ =>
        obtain ⟨r, s', hrest, hnames, hfails⟩ := ih s₁
        refine ⟨r, s', ?_, hnames, hfails⟩
        intro m _ _
        rw [Sink.deliverMessages, ExceptT.run_bind, ExceptT.run_liftM, StateT.run_bind,
          StateT.run_map, hchunk, map_pure, pure_bind]
        exact hrest
    | done =>
      refine ⟨.ok (), s, rfl, fun _ he ↦ ?_, fun hfailed ↦ ?_⟩
      · cases he
      · cases hfailed
    | failed cause =>
      refine ⟨.error (.ofArchive path cause), s, rfl, fun e he ↦ ?_, fun _ ↦ ⟨_, rfl⟩⟩
      cases he
      exact StoreError.subject?_ofArchive path cause

theorem mirrors_copyTo (sink : Sink (StateM σ)) (chunkSize : Nat) (stream : ArchiveStream) :
    Mirrors (σ := σ) (τ := τ) ((stream.copyTo (sink.inside _)).adapt StreamFault.error)
      ((stream.copyTo (sink.inside _)).adapt .error) fun new r ↦
        Translated chunkSize stream.path.text new r ∧
          (stream.failure.isSome → ∃ e, r = .error (.error e)) := by
  refine .ofSink fun s ↦ ?_
  obtain ⟨r, s', hrun, hnames, hfails⟩ : ∃ r s', (∀ {m : Type → Type} [Monad m] [LawfulMonad m],
      (stream.copyTo (sink.inside m)).run.run s = pure (r, s')) ∧
      (∀ e, r = .error e → e.subject? = some stream.path.text) ∧
      (stream.failure.isSome → ∃ e, r = .error e) := by
    unfold ArchiveStream.copyTo ArchiveStream.failure
    split
    · refine ⟨.ok (), s, rfl, fun _ he ↦ ?_, fun hfailed ↦ ?_⟩
      · cases he
      · cases hfailed
    · exact exists_run_deliverMessages sink stream.path stream.waiting s
  refine ⟨r.mapError .error, s', ?_, ?_, ⟨fun e he ↦ ?_, fun _ hcall ↦ ?_⟩, fun hfailure ↦ ?_⟩
  · rw [ExceptT.run_adapt, StateT.run_map, hrun, map_pure]
  · rw [ExceptT.run_adapt, StateT.run_map, hrun, map_pure]
  · cases r with
    | error e' =>
      cases he
      exact hnames e rfl
    | ok _ => cases he
  · exact absurd hcall List.not_mem_nil
  · obtain ⟨e, rfl⟩ := hfails hfailure
    exact ⟨e, rfl⟩

theorem mirrors_finish (sink : Sink (StateM σ)) (chunkSize : Nat) (p : StorePath) :
    Mirrors (τ := τ) (((sink.inside _).finish p).adapt StreamFault.error)
      (((sink.inside _).finish p).adapt .error) (Translated chunkSize p.text) := by
  refine .ofSink fun s ↦ ?_
  obtain ⟨outcome, s', hflush⟩ : ∃ outcome s', sink.flush.run s = (outcome, s') := ⟨_, _, rfl⟩
  have hinside : ∀ {m : Type → Type} [Monad m],
      (sink.inside m).flush.run s = pure (outcome, s') := congrArg pure hflush
  have hrun : ∀ {m : Type → Type} [Monad m] [LawfulMonad m],
      (((sink.inside m).finish p).adapt StreamFault.error).run.run s
        = pure (outcome.mapError fun e ↦ .error (.archive p (.sink e)), s') := by
    intro m _ _
    rw [ExceptT.run_adapt, StateT.run_map, Sink.finish, ExceptT.run_bind, ExceptT.run_liftM,
      StateT.run_bind, StateT.run_map, hinside, map_pure, pure_bind]
    cases outcome with
    | error e => exact map_pure _ _
    | ok _ => exact map_pure _ _
  refine ⟨_, s', hrun, hrun, fun e he ↦ ?_, fun _ hcall ↦ absurd hcall List.not_mem_nil⟩
  cases outcome with
  | error e' =>
    cases he
    rfl
  | ok _ => cases he

/-! ## Requests -/

/-- What starting and copying an archive and going on then comes to. -/
theorem mirrors_transfer {α : Type} (h : Handle (StateM τ)) (sink : Sink (StateM σ)) (p : StorePath)
    {f : ArchiveStream → ExceptT StreamFault (StateT σ (StateM τ)) α}
    {g : ArchiveStream → ExceptT StreamFault (StateT σ (StateM (τ × List EngineCall))) α}
    (hgo : ∀ stream, stream.path = p →
      Mirrors (f stream) (g stream) (Translated h.chunkSize p.text)) :
    Mirrors (do
        let stream ← (ExceptT.mk (liftM (h.start true none p).run) :
          ExceptT StreamFault (StateT σ (StateM τ)) ArchiveStream)
        (stream.copyTo (sink.inside _)).adapt .error
        f stream)
      (do
        let stream ← (ExceptT.mk (liftM (h.observed.start true none p).run) :
          ExceptT StreamFault (StateT σ (StateM (τ × List EngineCall))) ArchiveStream)
        (stream.copyTo (sink.inside _)).adapt .error
        g stream)
      (Translated h.chunkSize p.text) := by
  refine (Mirrors.ofEngine (logs_start h p)).bind (fun _ f hnew ↦ (hnew.1.broken f rfl).stop)
    fun new stream hnew ↦ ?_
  have hpath := hnew.2 stream rfl
  -- a call that has failed by now makes the copy fail
  have hstarted : ∀ {calls : List EngineCall} {r : Except StreamFault α},
      Translated h.chunkSize p.text calls r →
      (stream.failure.isSome → ∃ e, r = .error (.error e)) →
      Translated h.chunkSize p.text (new ++ calls) r := fun hr hfailure ↦
    ⟨hr.names, fun call hcall f hf ↦ (List.mem_append.1 hcall).elim
      (fun hcall ↦ hfailure (hnew.1.fails stream rfl call hcall f hf))
      (fun hcall ↦ hr.fails call hcall f hf)⟩
  have hcopy := mirrors_copyTo (τ := τ) sink h.chunkSize stream
  rw [hpath] at hcopy
  refine hcopy.bind (fun copied e hcopied ↦ hstarted hcopied.1.stop fun hfailure ↦ ?_)
    fun copied _ hcopied ↦ (hgo stream hpath).mono fun calls r hr ↦
      hstarted (hcopied.1.append hr) fun hfailure ↦ ?_
  · obtain ⟨e, he⟩ := hcopied.2 hfailure
    exact ⟨e, congrArg Except.error (Except.error.inj he)⟩
  · obtain ⟨e, he⟩ := hcopied.2 hfailure
    cases he

theorem mirrors_streamArchive (h : Handle (StateM τ)) (sink : Sink (StateM σ)) (p : StorePath) :
    Mirrors (h.streamArchive (n := StateT σ (StateM τ)) p.toBytes (sink.inside _))
      (h.observed.streamArchive p.toBytes (sink.inside _)) (Translated h.chunkSize p.text) := by
  rw [streamArchive, stream, streamed, named_toBytes, streamArchive, stream, streamed,
    named_toBytes]
  refine mirrors_transfer h sink p fun stream hpath ↦ ?_
  rw [hpath]
  exact mirrors_finish sink h.chunkSize p

theorem mirrors_streamArchiveHashed (h : Handle (StateM τ)) (sink : Sink (StateM σ))
    (p : StorePath) :
    Mirrors (h.streamArchiveHashed (n := StateT σ (StateM τ)) p.toBytes (sink.inside _))
      (h.observed.streamArchiveHashed p.toBytes (sink.inside _))
      (Translated h.chunkSize p.text) := by
  rw [streamArchiveHashed, streamed, named_toBytes, streamArchiveHashed, streamed, named_toBytes]
  refine (Mirrors.ofEngine ((logs_record h p).adapt StreamFault.error fun _ _ h ↦ h)).bind
    (fun _ _ ↦ Translated.stop) fun new info hnew ↦ ?_
  refine Mirrors.mono (mirrors_transfer h sink p fun stream _ ↦ ?_) fun _ _ ↦ hnew.append
  dsimp only
  split
  · exact (mirrors_finish sink h.chunkSize p).bind (fun _ _ ↦ Translated.stop)
      fun _ _ hfinished ↦ .pure (hfinished.append (.ok _))
  · exact .throw (.error rfl)

theorem map_eq_error {ε α β : Type} {x : Except ε α} {f : α → β} {e : ε}
    (h : x.map f = .error e) : x = .error e := by
  cases x with
  | error e' => exact congrArg Except.error (Except.error.inj h)
  | ok a => cases h

theorem map_eq_ok {ε α β : Type} {x : Except ε α} {f : α → β} {b : β} (h : x.map f = .ok b) :
    ∃ a, x = .ok a ∧ f a = b := by
  cases x with
  | error e => cases h
  | ok a => exact ⟨a, rfl, Except.ok.inj h⟩

theorem comes_of_malformed {ρ : Type} (h : Handle (StateM ρ)) (sink : Sink (StateT σ (StateM ρ)))
    {request : Request} {name : Bytes} {e : StorePathError}
    (hname : request.subject name = .error e)
    (s : σ) (t : ρ) :
    Comes (h.perform sink name request) s t (.error (.error (.invalidPath e))) s t := by
  by_cases hrequest : request = .hashPart
  · subst hrequest
    rw [perform, asks, ofHashPart, map_eq_error hname]
    rfl
  · rw [Request.subject_of_ne hrequest] at hname
    have hnamed : StorePath.ofBytes name = .error e := map_eq_error hname
    cases request with
    | hashPart => exact absurd rfl hrequest
    | _ =>
      simp only [perform, asks, drains, pathInfo, isValid, closure, reader, stream, streamArchive,
        streamArchiveHashed, streamed, named, hnamed]
      rfl

theorem mirrors_perform_path (h : Handle (StateM τ)) (sink : Sink (StateM σ)) {request : Request}
    (hrequest : request ≠ .hashPart) (p : StorePath) :
    Mirrors (h.perform (sink.inside (StateM τ)) p.toBytes request)
      (h.observed.perform (sink.inside _) p.toBytes request)
      (Translated h.chunkSize p.text) := by
  cases request with
  | hashPart => exact absurd rfl hrequest
  | pathInfo =>
    rw [perform, perform, pathInfo, pathInfo, named_toBytes, named_toBytes, pure_bind, pure_bind]
    exact mirrors_asks (logs_record h p)
  | validity =>
    rw [perform, perform, isValid, isValid, named_toBytes, named_toBytes, pure_bind, pure_bind]
    exact mirrors_asks (logs_translated (Engine.traced_observe h.chunkSize (fun _ ↦ True)
      (.isValid p) (h.engine.isValid p)) (StoreError.subject?_ofQuery .validity p))
  | closure policy => exact mirrors_asks (logs_closure h policy p)
  | stream => exact mirrors_drains ((logs_stream h p).mono fun _ _ hr ↦ hr.1)
  | reader => exact mirrors_drains (logs_reader h p)
  | transfer => exact mirrors_streamArchive h sink p
  | hashedTransfer =>
    exact (mirrors_streamArchiveHashed h sink p).bind (fun _ _ ↦ Translated.stop)
      fun _ _ hr ↦ .pure (hr.append (.ok ()))

theorem mirrors_perform (h : Handle (StateM τ)) (sink : Sink (StateM σ)) {request : Request}
    {name : Bytes} {subject : Text} (hname : request.subject name = .ok subject) :
    Mirrors (h.perform (sink.inside (StateM τ)) name request)
      (h.observed.perform (sink.inside _) name request) (Translated h.chunkSize subject) := by
  by_cases hrequest : request = .hashPart
  · subst hrequest
    obtain ⟨hash, hhash, rfl⟩ := map_eq_ok hname
    rw [perform, perform, ofHashPart, ofHashPart, hhash]
    refine mirrors_asks (logs_translated (Engine.traced_observe h.chunkSize (fun _ ↦ True)
      (.ofHashPart hash) (h.engine.ofHashPart hash)) fun f ↦ ?_)
    cases f <;> rfl
  · rw [Request.subject_of_ne hrequest] at hname
    obtain ⟨p, hp, rfl⟩ := map_eq_ok hname
    rw [StorePath.ofBytes_eq_ok_iff.1 hp]
    exact mirrors_perform_path h sink hrequest p

/-- **No failure is taken for a success.** A request whose bytes are not a name gives the error of
the parser, and leaves the engine and the sink alone. Any other request never gives that error, its
errors name what was asked about, and it fails if a call of the engine has failed or panicked. -/
theorem perform_translates (h : Handle (StateM τ)) (sink : Sink (StateM σ)) (request : Request)
    (name : Bytes) (s : σ) (t : τ) :
    ∃ r s' t' calls, Comes (h.perform (sink.inside (StateM τ)) name request) s t r s' t' ∧
      Comes (h.observed.perform (sink.inside _) name request) s (t, []) r s' (t', calls) ∧
      match request.subject name with
      | .error e => r = .error (.error (.invalidPath e)) ∧ calls = [] ∧ s' = s ∧ t' = t
      | .ok subject =>
        (∀ e, r ≠ .error (.error (.invalidPath e))) ∧
          (∀ e, r = .error (.error e) → e.subject? = some subject) ∧
          ∀ call ∈ calls, ∀ f, EngineCall.fault? h.chunkSize call = some f →
            ∃ e, r = .error (.error e) := by
  cases hname : request.subject name with
  | error e =>
    exact ⟨_, s, t, [], comes_of_malformed h _ hname s t,
      comes_of_malformed h.observed _ hname s (t, []), rfl, rfl, rfl, rfl⟩
  | ok subject =>
    obtain ⟨r, s', t', calls, hx, hy, hr⟩ :=
      mirrors_iff.1 (mirrors_perform h sink hname) s t []
    refine ⟨r, s', t', calls, hx, hy, fun e he ↦ ?_, hr.names, hr.fails⟩
    have hsubject := hr.names _ he
    cases hsubject

end Handle

end NixStore
