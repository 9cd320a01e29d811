import NixStore.Handle.Settings
import NixStore.Proofs.Stream.Transfer

/-!
# Which handles can stream

A configuration that is accepted, and every change of a handle, keeps the size of chunks and the
room in channels above zero. Both also have a greatest value, far above, and against that nothing is
checked: beyond it a stream breaks off at its start, or has no bytes and ends with an error. Within
the limits a stream gives the whole archive of a producer that succeeds.
-/

namespace NixStore

namespace Config

variable {config : Config}

theorem validate_eq_ok_iff : config.validate = .ok () ↔
    0 < config.chunkSize ∧ 0 < config.channelCapacity ∧
      ∃ dir, config.logicalStoreDir = .ok dir := by
  rw [validate]
  by_cases hsize : config.chunkSize = 0
  · rw [if_pos hsize, hsize]
    exact iff_of_false nofun fun h ↦ absurd h.1 (Nat.lt_irrefl 0)
  by_cases hcapacity : config.channelCapacity = 0
  · rw [if_neg hsize, if_pos hcapacity, hcapacity]
    exact iff_of_false nofun fun h ↦ absurd h.2.1 (Nat.lt_irrefl 0)
  rw [if_neg hsize, if_neg hcapacity]
  cases config.logicalStoreDir with
  | error e => exact iff_of_false nofun fun ⟨_, _, _, h⟩ ↦ by cases h
  | ok dir =>
    exact iff_of_true rfl ⟨Nat.pos_of_ne_zero hsize, Nat.pos_of_ne_zero hcapacity, dir, rfl⟩

theorem logicalStoreDir_of_default (h : config.storeDir = default.storeDir) :
    config.logicalStoreDir = .ok StoreDir.default := by
  have htext : Text.ofUtf8? default.storeDir = some (text "/nix/store") := by decide +kernel
  rw [logicalStoreDir, h, htext]
  rfl

end Config

namespace Handle

section

variable {m : Type → Type} {h : Handle m}

/-- There is room for a byte in each chunk, and for a message in the channel. -/
def Usable (h : Handle m) : Prop := 0 < h.chunkSize ∧ 0 < h.channelCapacity

theorem Usable.set (hh : h.Usable) (setting : Setting) : (h.set setting).Usable := by
  cases setting with
  | chunkSize n => exact ⟨Nat.lt_of_lt_of_le Nat.one_pos (Nat.le_max_right n 1), hh.2⟩
  | channelCapacity n => exact ⟨hh.1, Nat.lt_of_lt_of_le Nat.one_pos (Nat.le_max_right n 1)⟩

theorem Usable.adjust (hh : h.Usable) (settings : List Setting) : (h.adjust settings).Usable := by
  induction settings generalizing h with
  | nil => exact hh
  | cons setting settings ih => exact ih (hh.set setting)

theorem usable_of_openStore {κ : Type} [DecidableEq κ] {guard guard' : SetupGuard κ} {kind : κ}
    {setup : Except EngineError Unit} {openEngine : Config → Except EngineError (Engine m)}
    {config : Config}
    (hopen : openStore guard kind setup openEngine config = (.ok h, guard')) : h.Usable := by
  rw [openStore] at hopen
  cases hvalid : config.validate with
  | error e =>
    rw [hvalid] at hopen
    cases hopen
  | ok _ =>
    rw [hvalid] at hopen
    simp only at hopen
    split at hopen
    · cases hopen
    · split at hopen
      · cases hopen
      · cases hopen
        have hpos := Config.validate_eq_ok_iff.1 hvalid
        exact ⟨hpos.1, hpos.2.1⟩

end

variable {τ : Type} {h : Handle (StateM τ)}

theorem run_stream (h : Handle (StateM τ)) (p : StorePath) (t : τ) :
    (h.stream true none p.toBytes).run.run t = (h.start true none p).run.run t := by
  rw [stream, streamed, named, StorePath.ofBytes_eq_ok_iff.2 rfl]
  rfl

/-- The stream of a producer that succeeds gives all of its archive and then the end, in whatever
order the two sides take their turns. -/
theorem drained_of_account (p : StorePath) {producer : Producer (Except Fault Unit)}
    {chunkSize capacity : Nat} {archive : Bytes}
    (haccount : producer.account chunkSize = (.ok (), archive)) (hcap : 0 < capacity) :
    let stream := ArchiveStream.ofMessages p ((producer.transmit chunkSize).run none).2
    stream.bytes = archive ∧ stream.outcome = .ok () ∧
      ∀ schedule, Turn.Fair schedule → ∃ n k,
        ((Channel.start capacity p (producer.transmit chunkSize)).after schedule n).seen =
          stream.chunks.map (some ∘ .ok) ++ List.replicate (k + 1) none := by
  intro stream
  obtain ⟨chunks, hrun, -, -, hall⟩ := producer.run_transmit chunkSize
  obtain ⟨hchunks, hfailure⟩ := Channel.chunks_and_failure p chunks
    (Channel.isTerminal_lastMessage (producer.account chunkSize).1)
  have hmessages : ((producer.transmit chunkSize).run none).2 =
      chunks.map .chunk ++ [Producer.lastMessage (producer.account chunkSize).1] := by rw [hrun]
  rw [← hmessages] at hchunks hfailure
  rw [haccount] at hall hfailure
  refine ⟨?_, ?_, fun schedule fair ↦ ?_⟩
  · rw [ArchiveStream.bytes, hchunks]
    exact hall rfl
  · rw [ArchiveStream.outcome, hfailure]
    rfl
  · obtain ⟨n, k, hseen⟩ :=
      Channel.exists_drained capacity p (producer.transmit chunkSize) fair hcap
    refine ⟨n, k, hseen.trans ?_⟩
    rw [ArchiveStream.items, hfailure, List.map_append, List.map_map]
    exact congrArg (· ++ _) (List.append_nil _)

/-- **Within the limits of channels and buffers every handle that was opened streams whole
archives**, whatever its settings were changed to. Only a channel beyond its limit breaks off the
start of a stream, and a chunk beyond its limit leaves the stream empty and failing, without a
question to the engine. -/
theorem opened_handle_streams {κ : Type} [DecidableEq κ] {guard guard' : SetupGuard κ} {kind : κ}
    {setup : Except EngineError Unit}
    {openEngine : Config → Except EngineError (Engine (StateM τ))} {config : Config}
    {opened : Handle (StateM τ)}
    (hopen : openStore guard kind setup openEngine config = (.ok opened, guard'))
    (settings : List Setting) (p : StorePath) (t : τ) :
    let h := opened.adjust settings
    let producer := ((h.engine.archive p).run t).1
    0 < h.chunkSize ∧ 0 < h.channelCapacity ∧
    ∃ r t', (h.stream true none p.toBytes).run.run t = (r, t') ∧
      ((∃ message, r = .error (.panicked message)) ↔
        ArchiveStream.maxCapacity < h.channelCapacity) ∧
      (h.channelCapacity ≤ ArchiveStream.maxCapacity → ∃ stream, r = .ok stream ∧
        (ArchiveStream.maxChunkSize < h.chunkSize →
          stream.bytes = [] ∧ stream.outcome = .error (.archive p .unfinished) ∧ t' = t) ∧
        (h.chunkSize ≤ ArchiveStream.maxChunkSize →
          ∀ archive, producer.account h.chunkSize = (.ok (), archive) →
            stream.bytes = archive ∧ stream.outcome = .ok () ∧
            ∀ schedule, Turn.Fair schedule → ∃ n k,
              ((Channel.start h.channelCapacity p (producer.transmit h.chunkSize)).after
                  schedule n).seen =
                stream.chunks.map (some ∘ .ok) ++ List.replicate (k + 1) none)) := by
  intro h producer
  obtain ⟨hsize, hcapacity⟩ := (usable_of_openStore hopen).adjust settings
  refine ⟨hsize, hcapacity, ?_⟩
  rw [run_stream, run_start]
  by_cases hwide : ArchiveStream.maxCapacity < h.channelCapacity
  · refine ⟨_, t, if_pos hwide, iff_of_true ⟨_, rfl⟩ hwide, fun hle ↦ ?_⟩
    exact absurd hwide (Nat.not_lt.2 hle)
  by_cases hlong : ArchiveStream.maxChunkSize < h.chunkSize
  · refine ⟨.ok (.ofMessages p []), t, by rw [if_neg hwide, if_pos hlong],
      iff_of_false (by simp) hwide, fun _ ↦ ⟨_, rfl, fun _ ↦ ⟨rfl, rfl, rfl⟩, fun hle ↦ ?_⟩⟩
    exact absurd hlong (Nat.not_lt.2 hle)
  · refine ⟨.ok (.ofMessages p ((producer.transmit h.chunkSize).run none).2),
      ((h.engine.archive p).run t).2, by rw [if_neg hwide, if_neg hlong],
      iff_of_false (by simp) hwide, fun _ ↦ ⟨_, rfl, fun hlong' ↦ absurd hlong' hlong,
        fun _ archive haccount ↦ drained_of_account p haccount hcapacity⟩⟩

private theorem openStore_threeBytes {config : Config} (h : config.validate = .ok ()) :
    openStore SetupGuard.fresh () (.ok ()) (fun _ ↦ .ok threeByteEngine) config =
      (.ok ⟨threeByteEngine, config.chunkSize, config.channelCapacity⟩, ⟨[()]⟩) := by
  rw [openStore, h]
  rfl

/-- A store is opened with the defaults, and then given the least room for messages. -/
theorem stream_of_threeBytes :
    openStore SetupGuard.fresh () (.ok ()) (fun _ ↦ .ok threeByteEngine) Config.default =
        (.ok ⟨threeByteEngine, 65536, 4⟩, ⟨[()]⟩) ∧
      ∃ stream t', (((⟨threeByteEngine, 65536, 4⟩ : Handle (StateM Unit)).adjust
          [.channelCapacity 0]).stream true none (default : StorePath).toBytes).run.run () =
        (.ok stream, t') ∧ stream.bytes = [1, 2, 3] ∧ stream.outcome = .ok () := by
  have hopen := openStore_threeBytes (Config.validate_eq_ok_iff.2
    ⟨by decide, by decide, _, Config.logicalStoreDir_of_default rfl⟩)
  obtain ⟨-, -, r, t', hrun, -, hwithin⟩ :=
    opened_handle_streams hopen [.channelCapacity 0] default ()
  obtain ⟨stream, rfl, -, hall⟩ := hwithin (by decide)
  obtain ⟨hbytes, houtcome, -⟩ := hall (by decide) _ account_threeBytes
  exact ⟨hopen, stream, t', hrun, hbytes, houtcome⟩

/-- A configuration that is accepted asks for more messages than a channel can keep, and a stream of
its store breaks off at the start. With more bytes in a chunk than a buffer can hold, a stream of
three bytes has none and ends with an error. -/
theorem streams_beyond_limits :
    let config := { Config.default with channelCapacity := 0x2000000000000000 }
    config.validate = .ok () ∧
      openStore SetupGuard.fresh () (.ok ()) (fun _ ↦ .ok threeByteEngine) config =
        (.ok ⟨threeByteEngine, 65536, 0x2000000000000000⟩, ⟨[()]⟩) ∧
      threeBytes.account 65536 = (.ok (), [1, 2, 3]) ∧
      ((⟨threeByteEngine, 65536, 0x2000000000000000⟩ : Handle (StateM Unit)).stream true none
          (default : StorePath).toBytes).run.run () =
        (.error (.panicked (text "a semaphore may not have more than MAX_PERMITS permits")), ()) ∧
      (((⟨threeByteEngine, 65536, 0x2000000000000000⟩ : Handle (StateM Unit)).adjust
          [.channelCapacity 4, .chunkSize 0x8000000000000000]).stream true none
          (default : StorePath).toBytes).run.run () =
        (.ok (.ofMessages default []), ()) ∧
      (ArchiveStream.ofMessages default []).bytes = [] ∧
      (ArchiveStream.ofMessages default []).outcome = .error (.archive default .unfinished) := by
  intro config
  have hvalid : config.validate = .ok () := Config.validate_eq_ok_iff.2
    ⟨by decide, by decide, _, Config.logicalStoreDir_of_default rfl⟩
  refine ⟨hvalid, openStore_threeBytes hvalid, account_threeBytes, ?_, ?_, rfl, rfl⟩
  · rw [run_stream, run_start]
    rfl
  · rw [run_stream, run_start]
    rfl

end Handle

end NixStore
