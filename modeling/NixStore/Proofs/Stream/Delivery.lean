import NixStore.Proofs.Stream.Chunks
import NixStore.Stream.Archive

/-!
# Delivery to a sink with limits

A sink of an archive takes what it is given in pieces of its own choice, may have room for only so
many bytes, and may fail to be flushed. What is seen of it is kept as a view of its states: what it
holds, how much more it takes, and for each flush what it held then and what came of that. Such a
sink may belong to a larger system, in which its calls change nothing else.

What a sink takes of some bytes, and whether they are delivered, depends on the room for all of them
only, and neither on how they are cut into chunks nor on the pieces that the sink takes. So what was
taken of two parts in turn is put together first, and then one call is added to another. Nothing on
the way flushes the sink.
-/

namespace NixStore

variable {σ : Type} {m : Type → Type} [Monad m]

/-- What is seen of a sink in each of its states. -/
structure SinkView (σ : Type) where
  /-- The bytes that were taken. -/
  held : σ → Bytes
  /-- How many more bytes are taken, if that is limited. -/
  room : σ → Option Nat
  /-- What was held at each flush, and what came of it. -/
  flushes : σ → List (Bytes × Except IoError Unit)

namespace SinkView

variable {view : SinkView σ} {sink : Sink (StateT σ m)}

/-- A sink takes some of what it is given as long as it has room, and nothing after that. -/
structure Describes (view : SinkView σ) (sink : Sink (StateT σ m)) : Prop where
  takes : ∀ data s, data ≠ [] → view.room s ≠ some 0 → ∃ n s', n < data.length ∧
    (sink.write data).run s = pure (.ok (n + 1), s') ∧
    view.held s' = view.held s ++ data.take (n + 1) ∧ (∀ k ∈ view.room s, n < k) ∧
    view.room s' = (view.room s).map (· - (n + 1)) ∧ view.flushes s' = view.flushes s
  refuses : ∀ data s, data ≠ [] → view.room s = some 0 → ∃ r s',
    (sink.write data).run s = pure (r, s') ∧ (r = .ok 0 ∨ ∃ e, r = .error e) ∧
    view.held s' = view.held s ∧ view.flushes s' = view.flushes s
  flushed : ∀ s, ∃ r s', sink.flush.run s = pure (r, s') ∧ view.held s' = view.held s ∧
    view.flushes s' = view.flushes s ++ [(view.held s, r)]

/-- The same of what is written only. Of flushes nothing needs to be known then. -/
structure Accepts (view : SinkView σ) (sink : Sink (StateT σ m)) : Prop where
  takes : ∀ data s, data ≠ [] → view.room s ≠ some 0 → ∃ n s', n < data.length ∧
    (sink.write data).run s = pure (.ok (n + 1), s') ∧
    view.held s' = view.held s ++ data.take (n + 1) ∧ (∀ k ∈ view.room s, n < k) ∧
    view.room s' = (view.room s).map (· - (n + 1)) ∧ view.flushes s' = view.flushes s
  refuses : ∀ data s, data ≠ [] → view.room s = some 0 → ∃ r s',
    (sink.write data).run s = pure (r, s') ∧ (r = .ok 0 ∨ ∃ e, r = .error e) ∧
    view.held s' = view.held s ∧ view.flushes s' = view.flushes s

theorem Describes.accepts (h : view.Describes sink) : view.Accepts sink := ⟨h.takes, h.refuses⟩

/-- There is room for some bytes. -/
def Fits (view : SinkView σ) (s : σ) (data : Bytes) : Prop :=
  ∀ k ∈ view.room s, data.length ≤ k

/-- The part of some bytes that there is room for. -/
def fitting (view : SinkView σ) (s : σ) (data : Bytes) : Bytes :=
  match view.room s with
  | none => data
  | some k => data.take k

/-- A sink was given some bytes and not flushed; it took those that there was room for. -/
structure Took (view : SinkView σ) (s : σ) (data : Bytes) (s' : σ) : Prop where
  flushes_eq : view.flushes s' = view.flushes s
  held_eq : view.held s' = view.held s ++ view.fitting s data
  room_eq : view.Fits s data → view.room s' = (view.room s).map (· - data.length)

/-- What copying a stream to a sink came to. If there is room for all bytes, it came to how the
archive ends. -/
structure Copied (view : SinkView σ) (stream : ArchiveStream) (s : σ) (r : Except StoreError Unit)
    (s' : σ) : Prop where
  took : view.Took s stream.bytes s'
  complete : view.Fits s stream.bytes → r = stream.outcome
  cut : ¬view.Fits s stream.bytes → ∃ e, r = .error (.archive stream.path (.sink e))

section

variable {s s₁ s' : σ} {data more : Bytes}

theorem fitting_of_none (h : view.room s = none) : view.fitting s data = data := by
  rw [fitting, h]

theorem fitting_of_some {k : Nat} (h : view.room s = some k) :
    view.fitting s data = data.take k := by
  rw [fitting, h]

theorem fitting_of_fits (h : view.Fits s data) : view.fitting s data = data := by
  cases hroom : view.room s with
  | none => exact fitting_of_none hroom
  | some k => rw [fitting_of_some hroom, List.take_of_length_le (h k hroom)]

theorem not_fits_iff : ¬view.Fits s data ↔ ∃ k, view.room s = some k ∧ k < data.length := by
  simp [Fits]

theorem fits_nil (view : SinkView σ) (s : σ) : view.Fits s [] := fun k _ ↦ Nat.zero_le k

theorem Fits.of_append (h : view.Fits s (data ++ more)) : view.Fits s data := fun k hk ↦ by
  have hall := h k hk
  rw [List.length_append] at hall
  omega

theorem Took.fits_iff (h : view.Took s data s₁) (hfits : view.Fits s data) :
    view.Fits s₁ more ↔ view.Fits s (data ++ more) := by
  rw [Fits, Fits, h.room_eq hfits, List.length_append]
  constructor
  · intro hmore k hk
    have hdata := hfits k hk
    have hrest := hmore (k - data.length) (Option.mem_map_of_mem _ hk)
    omega
  · intro hall k hk
    obtain ⟨k₀, hk₀, rfl⟩ := Option.map_eq_some_iff.1 hk
    have := hall k₀ hk₀
    omega

theorem Took.nothing (view : SinkView σ) (s : σ) : view.Took s [] s where
  flushes_eq := rfl
  held_eq := by rw [fitting_of_fits (view.fits_nil s), List.append_nil]
  room_eq _ := by cases view.room s <;> rfl

theorem Took.trans (h : view.Took s data s₁) (hfits : view.Fits s data)
    (h' : view.Took s₁ more s') : view.Took s (data ++ more) s' where
  flushes_eq := h'.flushes_eq.trans h.flushes_eq
  held_eq := by
    have hall : view.fitting s (data ++ more) = data ++ view.fitting s₁ more := by
      have hroom₁ := h.room_eq hfits
      cases hroom : view.room s with
      | none =>
        rw [hroom] at hroom₁
        rw [fitting_of_none hroom, fitting_of_none hroom₁]
      | some k =>
        rw [hroom] at hroom₁
        rw [fitting_of_some hroom, fitting_of_some hroom₁, List.take_append,
          List.take_of_length_le (hfits k hroom)]
    rw [h'.held_eq, h.held_eq, fitting_of_fits hfits, hall, List.append_assoc]
  room_eq hall := by
    rw [h'.room_eq ((h.fits_iff hfits).2 hall), h.room_eq hfits, Option.map_map]
    refine congrArg (Option.map · (view.room s)) (funext fun k ↦ ?_)
    rw [List.length_append, Function.comp, Nat.sub_sub]

/-- Where there is no room for some bytes there is none for any behind them. -/
theorem Took.of_not_fits (h : view.Took s data s') (hfull : ¬view.Fits s data) :
    view.Took s (data ++ more) s' where
  flushes_eq := h.flushes_eq
  held_eq := by
    obtain ⟨k, hroom, hlt⟩ := not_fits_iff.1 hfull
    rw [h.held_eq, fitting_of_some hroom, fitting_of_some hroom,
      List.take_append_of_le_length (Nat.le_of_lt hlt)]
  room_eq hall := absurd hall.of_append hfull

theorem Copied.eq_ok_iff {stream : ArchiveStream} {r : Except StoreError Unit}
    (h : view.Copied stream s r s') :
    r = .ok () ↔ stream.outcome = .ok () ∧ view.Fits s stream.bytes := by
  by_cases hfits : view.Fits s stream.bytes
  · rw [h.complete hfits]
    exact (and_iff_left hfits).symm
  · obtain ⟨e, rfl⟩ := h.cut hfits
    exact iff_of_false (by simp) fun hall ↦ hfits hall.2

end

variable [LawfulMonad m]

/-- Some bytes are delivered if and only if there is room for all of them. -/
theorem Accepts.deliver (h : view.Accepts sink) (zero : IoError) (data : Bytes) (s : σ) :
    ∃ r s', (sink.deliver zero data).run s = pure (r, s') ∧
      (r = .ok () ↔ view.Fits s data) ∧ view.Took s data s' := by
  induction data using Sink.deliver.induct generalizing s with
  | case1 =>
    rw [Sink.deliver]
    exact ⟨.ok (), s, rfl, ⟨fun _ ↦ view.fits_nil s, fun _ ↦ rfl⟩, .nothing view s⟩
  | case2 b rest ih =>
    by_cases hroom : view.room s = some 0
    · obtain ⟨r, s', hwrite, hr, hheld, hflushes⟩ :=
        h.refuses (b :: rest) s (List.cons_ne_nil b rest) hroom
      have hfull : ¬view.Fits s (b :: rest) := fun hfits ↦
        Nat.not_succ_le_zero _ (hfits 0 hroom)
      obtain ⟨e, hrun⟩ : ∃ e, (sink.deliver zero (b :: rest)).run s = pure (.error e, s') := by
        rw [Sink.deliver, StateT.run_bind, hwrite, pure_bind]
        rcases hr with rfl | ⟨e, rfl⟩
        · exact ⟨zero, rfl⟩
        · exact ⟨e, rfl⟩
      have hnothing : view.fitting s (b :: rest) = [] := fitting_of_some hroom
      exact ⟨.error e, s', hrun, iff_of_false (by simp) hfull,
        hflushes, by rw [hheld, hnothing, List.append_nil], fun hfits ↦ absurd hfits hfull⟩
    · obtain ⟨n, s₁, hn, hwrite, hheld, hless, hroom₁, hflushes⟩ :=
        h.takes (b :: rest) s (List.cons_ne_nil b rest) hroom
      have hsplit : (b :: rest).take (n + 1) ++ rest.drop n = b :: rest := by
        rw [List.take_succ_cons, List.cons_append, List.take_append_drop]
      have hlength : ((b :: rest).take (n + 1)).length = n + 1 :=
        List.length_take_of_le hn
      have hfits : view.Fits s ((b :: rest).take (n + 1)) := fun k hk ↦ by
        rw [hlength]
        exact hless k hk
      have hpiece : view.Took s ((b :: rest).take (n + 1)) s₁ :=
        ⟨hflushes, by rw [hheld, fitting_of_fits hfits], fun _ ↦ by rw [hroom₁, hlength]⟩
      obtain ⟨r, s₂, hrest, hr, htook⟩ := ih n s₁
      refine ⟨r, s₂, ?_, ?_, ?_⟩
      · rw [Sink.deliver, StateT.run_bind, hwrite, pure_bind]
        exact hrest
      · rw [hr, hpiece.fits_iff hfits, hsplit]
      · have hall := hpiece.trans hfits htook
        rwa [hsplit] at hall

theorem Describes.deliverMessages (h : view.Describes sink) (path : StorePath)
    (messages : List Message) (s : σ) :
    ∃ r s', (sink.deliverMessages path messages).run.run s = pure (r, s') ∧
      view.Copied (.ofMessages path messages) s r s' := by
  induction messages generalizing s with
  | nil => exact ⟨_, s, rfl, .nothing view s, fun _ ↦ rfl, absurd (view.fits_nil s)⟩
  | cons message messages ih =>
    cases message with
    | chunk bytes =>
      obtain ⟨r, s₁, hchunk, hr, htook⟩ := h.accepts.deliver .zeroWrite bytes s
      rw [Sink.deliverMessages, ExceptT.run_bind]
      cases r with
      | error e =>
        have hfull : ¬view.Fits s bytes := fun hfits ↦ nomatch hr.2 hfits
        refine ⟨.error (.archive path (.sink e)), s₁, ?_, htook.of_not_fits hfull,
          fun hfits ↦ absurd hfits.of_append hfull, fun _ ↦ ⟨e, rfl⟩⟩
        simp only [ExceptT.run_liftM, StateT.run_bind, StateT.run_map, hchunk, map_pure, pure_bind]
        rfl
      | ok _ =>
        have hfits := hr.1 rfl
        obtain ⟨r, s₂, hrest, hcopied⟩ := ih s₁
        refine ⟨r, s₂, ?_, htook.trans hfits hcopied.took,
          fun hall ↦ hcopied.complete ((htook.fits_iff hfits).2 hall),
          fun hall ↦ hcopied.cut fun hmore ↦ hall ((htook.fits_iff hfits).1 hmore)⟩
        simp only [ExceptT.run_liftM, StateT.run_bind, StateT.run_map, hchunk, map_pure, pure_bind]
        exact hrest
    | done => exact ⟨_, s, rfl, .nothing view s, fun _ ↦ rfl, absurd (view.fits_nil s)⟩
    | failed cause => exact ⟨_, s, rfl, .nothing view s, fun _ ↦ rfl, absurd (view.fits_nil s)⟩

theorem Describes.copyTo (h : view.Describes sink) (stream : ArchiveStream) (s : σ) :
    ∃ r s', (stream.copyTo sink).run.run s = pure (r, s') ∧ view.Copied stream s r s' := by
  obtain ⟨path, waiting, finished⟩ := stream
  cases finished with
  | true => exact ⟨.ok (), s, rfl, .nothing view s, fun _ ↦ rfl, absurd (view.fits_nil s)⟩
  | false => exact h.deliverMessages path waiting s

end SinkView

/-! ## A sink with a limit -/

/-- A sink that takes one byte at a time, and no more than `limit` of them if that is given. Its
state is what it holds, and its flushes. -/
def Sink.bytewise (limit : Option Nat) :
    Sink (StateT (Bytes × List (Bytes × Except IoError Unit)) m) where
  write data s :=
    if limit.map (· - s.1.length) = some 0 then pure (.ok 0, s)
    else pure (.ok 1, s.1 ++ data.take 1, s.2)
  flush s := pure (.ok (), s.1, s.2 ++ [(s.1, .ok ())])

namespace SinkView

def bytewise (limit : Option Nat) : SinkView (Bytes × List (Bytes × Except IoError Unit)) where
  held s := s.1
  room s := limit.map (· - s.1.length)
  flushes s := s.2

theorem describes_bytewise (limit : Option Nat) :
    (bytewise limit).Describes (m := m) (.bytewise limit) where
  takes data s hdata hroom := by
    have hone : (data.take 1).length = 1 := List.length_take_of_le (List.length_pos_iff.2 hdata)
    refine ⟨0, (s.1 ++ data.take 1, s.2), List.length_pos_iff.2 hdata, if_neg hroom, rfl, ?_, ?_,
      rfl⟩
    · exact fun k hk ↦ Nat.pos_of_ne_zero fun hzero ↦ hroom (hzero ▸ hk)
    · simp only [bytewise, Option.map_map, Function.comp_def, List.length_append, hone, Nat.sub_sub]
  refuses data s _ hroom := ⟨.ok 0, s, if_pos hroom, .inl rfl, rfl, rfl⟩
  flushed s := ⟨.ok (), (s.1, s.2 ++ [(s.1, .ok ())]), rfl, rfl, rfl⟩

end SinkView

end NixStore
