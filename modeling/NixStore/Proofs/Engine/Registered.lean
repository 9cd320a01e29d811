import Mathlib.Data.List.Basic
import NixStore.Engine.Local
import NixStore.Proofs.Database.Linked
import NixStore.Proofs.Engine.Answering
import NixStore.Proofs.StorePath.Parsing

/-!
# Stores made by registrations

The engine of a local store whose database was made by registrations alone. As long as the paths
that were registered, their derivers and the outputs are paths of the store's directory, all that
the tables name can be read, and the engine answers for the paths that were registered. What a
path refers to need not be registered, nor be a path at all: then no reference is recorded.
-/

namespace NixStore

/-- A directory reads a text as a full path. -/
def StoreDir.Reads (d : StoreDir) (full : Text) : Prop := ∃ p, d.parse full = .ok p

theorem StoreDir.reads_print (d : StoreDir) (p : StorePath) : d.Reads (d.print p) :=
  ⟨p, d.parse_print p⟩

theorem StoreDir.not_reads {d : StoreDir} {full : Text} {e : StorePathError}
    (he : d.parse full = .error e) : ¬d.Reads full := by
  rintro ⟨p, hp⟩
  cases he.symm.trans hp

theorem StoreDir.print_mem_map {d : StoreDir} {p : StorePath} {ps : List StorePath} :
    d.print p ∈ ps.map d.print ↔ p ∈ ps :=
  List.mem_map_of_injective fun _ _ ↦ print_injective

/-- The paths that a statement puts into the tables are paths of a directory; the deriver may be
empty, which stands for none. -/
def Statement.Parses (d : StoreDir) : Statement → Prop
  | .register r => d.Reads r.path ∧ ∀ t ∈ r.deriver, t ≠ [] → d.Reads t
  | .registerOutput _ _ path => d.Reads path

/-- A text that is not empty is kept whether or not an empty one counts as absent. -/
theorem nonEmpty?_eq_some_iff {t : Option Text} {u : Text} (hu : u ≠ []) :
    nonEmpty? t = some u ↔ Cell.ofText? t = .text u := by
  cases t with
  | none => simp [nonEmpty?, Cell.ofText?]
  | some t =>
    rw [nonEmpty?, Option.filter_eq_some_iff, Cell.ofText?, Cell.text.injEq, Option.some.injEq]
    refine and_iff_left_of_imp ?_
    rintro rfl
    simpa using hu

namespace Database

variable {history : List Statement}

theorem record?_after {r : Registration} {time : Int64} {id : Nat} {p : Text}
    (hrow : (Tables.after history).row? p = some (r.row time id)) :
    (Database.after history).record? p = .ok (some (r.record time id)) := by
  rw [after_eq, Tables.record?_of_row? hrow, r.read_row]
  rfl

theorem references_after (id : Nat) :
    (Database.after history).references id = .ok ((Tables.after history).referencesOf id) := by
  rw [after_eq, Tables.references_eq]

end Database

namespace LocalStore

open Engine (Answers)

/-- The engine of a store whose database comes from some statements, while nothing changes. -/
def engineAfter (s : LocalStore) (history : List Statement) (disk : FileNode) : Engine Id :=
  s.engine (pure (.ok (Database.after history))) (pure disk)

variable {s : LocalStore} {history : List Statement} {disk : FileNode} {p q : StorePath}

theorem run_statement {m : Type → Type} [Monad m] [LawfulMonad m] {α : Type}
    (read : m (Except DatabaseError Database)) (query : Database → Except DatabaseError α) :
    (statement read query).run = (fun x ↦ (x.bind query).mapError statementFailed) <$> read := by
  rw [statement, ExceptT.run_bind, map_eq_pure_bind]
  simp only [ExceptT.run_liftM, bind_map_left]
  refine bind_congr fun x ↦ ?_
  cases x with
  | error e => rfl
  | ok db =>
    simp only [Except.bind]
    cases query db <;> rfl

theorem statement_eq {α : Type} (db : Database) (query : Database → Except DatabaseError α) :
    statement (m := Id) (pure (.ok db)) query = known ((query db).mapError statementFailed) :=
  run_statement (pure (.ok db)) query

theorem answers_statement {α : Type} {db : Database} {query : Database → Except DatabaseError α}
    {a : α} (h : query db = .ok a) :
    Answers (statement (m := Id) (pure (.ok db)) query) a := by
  rw [statement_eq, h]
  rfl

/-- Full paths are read one by one, up to the first that is malformed. -/
theorem parseAll_cases (fulls : List Text) :
    (∃ ps, s.parseAll fulls = .ok ps ∧ ps.map s.storeDir.print = fulls) ∨
      ∃ full ∈ fulls, ∃ e, s.storeDir.parse full = .error e ∧
        s.parseAll fulls = .error (.error (.corrupt e)) := by
  induction fulls with
  | nil => exact .inl ⟨[], rfl, rfl⟩
  | cons full fulls ih =>
    have hcons : s.parseAll (full :: fulls) = do
        return (← s.parse full) :: (← s.parseAll fulls) := List.mapM_cons
    rw [hcons, parse]
    cases hread : s.storeDir.parse full with
    | error e => exact .inr ⟨full, List.mem_cons_self, e, hread, rfl⟩
    | ok p =>
      rcases ih with ⟨ps, hps, hprint⟩ | ⟨full', hmem, e, he, hfail⟩
      · refine .inl ⟨p :: ps, ?_, ?_⟩
        · rw [hps]
          rfl
        · rw [List.map_cons, hprint, ← StoreDir.parse_eq_ok_iff.1 hread]
      · refine .inr ⟨full', List.mem_cons_of_mem _ hmem, e, he, ?_⟩
        rw [hfail]
        rfl

theorem exists_parseAll {fulls : List Text} (h : ∀ full ∈ fulls, s.storeDir.Reads full) :
    ∃ ps, s.parseAll fulls = .ok ps ∧ ∀ p, p ∈ ps ↔ s.storeDir.print p ∈ fulls := by
  rcases s.parseAll_cases fulls with ⟨ps, hps, rfl⟩ | ⟨full, hmem, e, he, -⟩
  · exact ⟨ps, hps, fun p ↦ StoreDir.print_mem_map.symm⟩
  · exact absurd (h full hmem) (StoreDir.not_reads he)

/-- A question about other paths is answered if the database names only paths. -/
theorem exists_answers_paths {query : Database → Except DatabaseError (List Text)}
    {fulls : List Text} (hquery : query (Database.after history) = .ok fulls)
    (hreads : ∀ full ∈ fulls, s.storeDir.Reads full) :
    ∃ ps, Answers (do
        known (s.parseAll (← statement (m := Id) (pure (.ok (Database.after history))) query))) ps ∧
      ∀ p, p ∈ ps ↔ s.storeDir.print p ∈ fulls := by
  obtain ⟨ps, hps, hmem⟩ := exists_parseAll hreads
  exact ⟨ps, Answers.bind_iff.2 ⟨fulls, answers_statement hquery, hps⟩, hmem⟩

theorem answers_isValid : Answers ((s.engineAfter history disk).isValid p)
    ((Tables.after history).isValid (s.storeDir.print p)) :=
  answers_statement (by rw [Database.after_eq]; rfl)

theorem run_pathInfo_of_row {r : Registration} {time : Int64} {id : Nat}
    (hrow : (Tables.after history).row? (s.storeDir.print p) = some (r.row time id)) :
    ((s.engineAfter history disk).pathInfo p).run
      = (s.info p (r.record time id) ((Tables.after history).referencesOf id)).map some := by
  refine ((answers_statement (Database.record?_after hrow)).run_bind _).trans ?_
  refine ((answers_statement (Database.references_after id)).run_bind _).trans ?_
  cases s.info p (r.record time id) ((Tables.after history).referencesOf id) with
  | ok info => exact Answers.run_bind (x := known (.ok info)) rfl _
  | error cause => rfl

theorem run_pathInfo_of_no_row (hrow : (Tables.after history).row? (s.storeDir.print p) = none) :
    ((s.engineAfter history disk).pathInfo p).run = .ok none := by
  have hrecord : (Database.after history).record? (s.storeDir.print p) = .ok none := by
    rw [Database.after_eq, Tables.record?_of_none hrow]
  exact ((answers_statement hrecord).run_bind _).trans rfl

theorem exists_info_of_answers {r : Registration} {time : Int64} {id : Nat}
    {answer : Option PathInfo}
    (hrow : (Tables.after history).row? (s.storeDir.print p) = some (r.row time id))
    (h : Answers ((s.engineAfter history disk).pathInfo p) answer) :
    ∃ info, s.info p (r.record time id) ((Tables.after history).referencesOf id) = .ok info ∧
      answer = some info := by
  have hrun := (run_pathInfo_of_row hrow).symm.trans h
  cases hinfo : s.info p (r.record time id) ((Tables.after history).referencesOf id) with
  | error cause =>
    rw [hinfo] at hrun
    cases hrun
  | ok info =>
    rw [hinfo] at hrun
    exact ⟨info, rfl, (Except.ok.inj hrun).symm⟩

/-- A record is read with its references and its deriver, or one of them is malformed. -/
theorem info_cases (p : StorePath) (record : PathRecord) (references : List Text) :
    (∃ deriver qs, s.info p record references = .ok ⟨p, record.hash, record.archiveSize, deriver,
        qs, record.signatureList, record.registrationTime, record.ultimate,
        record.contentAddress⟩ ∧
      qs.map s.storeDir.print = references ∧ deriver.map s.storeDir.print = record.deriver) ∨
    ∃ full e, (full ∈ references ∨ record.deriver = some full) ∧ s.storeDir.parse full = .error e ∧
      s.info p record references = .error (.error (.corrupt e)) := by
  rw [info]
  rcases s.parseAll_cases references with ⟨qs, hqs, hprint⟩ | ⟨full, hmem, e, he, hfail⟩
  · rw [hqs]
    cases hderiver : record.deriver with
    | none => exact .inl ⟨none, qs, rfl, hprint, rfl⟩
    | some full =>
      rw [Option.mapM_some, parse]
      cases hread : s.storeDir.parse full with
      | error e => exact .inr ⟨full, e, .inr rfl, hread, rfl⟩
      | ok d =>
        refine .inl ⟨some d, qs, rfl, hprint, ?_⟩
        rw [Option.map_some, ← StoreDir.parse_eq_ok_iff.1 hread]
  · rw [hfail]
    exact .inr ⟨full, e, .inl hmem, he, rfl⟩

section

variable (h : ∀ statement ∈ history, statement.Parses s.storeDir)

include h

/-! ## What the tables name -/

theorem reads_of_isValid {full : Text} (hvalid : (Tables.after history).isValid full) :
    s.storeDir.Reads full := by
  obtain ⟨r, hr, rfl, -⟩ := Tables.isValid_after.1 hvalid
  exact (h _ hr).1

theorem reads_of_makes {drv full : Text} (hmakes : (Tables.after history).Makes drv full) :
    s.storeDir.Reads full := by
  obtain ⟨_, hmade⟩ := (Tables.linked_after history).recorded_of_makes hmakes
  exact h _ hmade

/-! ## Answers about paths -/

variable (disk)

theorem exists_referrers (p : StorePath) :
    ∃ qs, Answers ((s.engineAfter history disk).referrers p) qs ∧
      ∀ q, q ∈ qs ↔ (Tables.after history).Refers (s.storeDir.print q) (s.storeDir.print p) := by
  have hlinked := Tables.linked_after history
  simp only [← hlinked.mem_referrersOf]
  refine exists_answers_paths (by rw [Database.after_eq]; rfl) fun full hfull ↦ ?_
  exact reads_of_isValid h (hlinked.mem_referrersOf.1 hfull).isValid.1

theorem exists_outputs (p : StorePath) :
    ∃ qs, Answers ((s.engineAfter history disk).outputs p) qs ∧
      ∀ q, q ∈ qs ↔ (Tables.after history).Makes (s.storeDir.print p) (s.storeDir.print q) := by
  have hlinked := Tables.linked_after history
  simp only [← hlinked.mem_outputsOf]
  refine exists_answers_paths (by rw [Database.after_eq]; rfl) fun full hfull ↦ ?_
  exact reads_of_makes h (hlinked.mem_outputsOf.1 hfull)

theorem exists_derivers (p : StorePath) :
    ∃ qs, Answers ((s.engineAfter history disk).derivers p) qs ∧
      ∀ q, q ∈ qs ↔ (Tables.after history).Makes (s.storeDir.print q) (s.storeDir.print p) := by
  have hlinked := Tables.linked_after history
  simp only [← hlinked.mem_deriversOf]
  refine exists_answers_paths (by rw [Database.after_eq]; rfl) fun full hfull ↦ ?_
  exact reads_of_isValid h (hlinked.mem_deriversOf.1 hfull).isValid

theorem exists_pathInfo (hp : (Tables.after history).isValid (s.storeDir.print p)) :
    ∃ info, Answers ((s.engineAfter history disk).pathInfo p) (some info) ∧
      (∀ q, q ∈ info.references ↔
        (Tables.after history).Refers (s.storeDir.print p) (s.storeDir.print q)) ∧
      ∀ d, info.deriver = some d ↔
        (Tables.after history).Derives (s.storeDir.print p) (s.storeDir.print d) := by
  have hlinked := Tables.linked_after history
  obtain ⟨r, time, id, hr, -, hrow, hholds⟩ := hlinked.exists_registration hp
  obtain ⟨hmem, hpath⟩ := hlinked.row?_eq_some_iff.1 hrow
  rcases s.info_cases p (r.record time id) ((Tables.after history).referencesOf id) with
    ⟨deriver, qs, hinfo, hprint, hderiver⟩ | ⟨full, e, hfull, he, -⟩
  · refine ⟨_, (run_pathInfo_of_row hrow).trans (by rw [hinfo]; rfl), fun q ↦ ?_, fun d ↦ ?_⟩
    · rw [← hlinked.mem_referencesOf hholds, ← hprint, StoreDir.print_mem_map]
    · have hprinted : nonEmpty? r.deriver = some (s.storeDir.print d) ↔ deriver = some d := by
        rw [show nonEmpty? r.deriver = deriver.map s.storeDir.print from hderiver.symm]
        exact (Option.map_injective fun _ _ ↦ StoreDir.print_injective).eq_iff (b := some d)
      have hne : s.storeDir.print d ≠ [] :=
        List.append_ne_nil_of_right_ne_nil _ (List.cons_ne_nil _ _)
      rw [hlinked.derives_iff hmem hpath]
      exact hprinted.symm.trans (nonEmpty?_eq_some_iff hne)
  · refine absurd ?_ (StoreDir.not_reads he)
    rcases hfull with hfull | hfull
    · exact reads_of_isValid h ((hlinked.mem_referencesOf hholds).1 hfull).isValid.2
    · obtain ⟨hfull, hne⟩ := Option.filter_eq_some_iff.1 hfull
      exact (h _ hr).2 full hfull (by simpa using hne)

theorem answersFor_registered : (s.engineAfter history disk).AnswersFor
    fun p ↦ Registered history (s.storeDir.print p) where
  isValid p := ⟨_, answers_isValid, Tables.isValid_after⟩
  pathInfo p hp := by
    obtain ⟨info, hinfo, hmem, -⟩ := exists_pathInfo disk h (Tables.isValid_after.2 hp)
    exact ⟨info, hinfo, fun q hq ↦ Tables.isValid_after.1 ((hmem q).1 hq).isValid.2⟩
  referrers p _ := by
    obtain ⟨qs, hqs, hmem⟩ := exists_referrers disk h p
    exact ⟨qs, hqs, fun q hq ↦ Tables.isValid_after.1 ((hmem q).1 hq).isValid.1⟩
  outputs p _ := by
    obtain ⟨qs, hqs, -⟩ := exists_outputs disk h p
    exact ⟨qs, hqs⟩
  derivers p _ := by
    obtain ⟨qs, hqs, hmem⟩ := exists_derivers disk h p
    exact ⟨qs, hqs, fun q hq ↦ Tables.isValid_after.1 ((hmem q).1 hq).isValid⟩

variable {disk}

/-- **Closures on a registered store never fail partway.** A closure fails if and only if its root
was not registered, and says so; else all paths that it finds were registered. -/
theorem closure_of_registered (policy : ClosurePolicy) (root : StorePath) :
    (¬Registered history (s.storeDir.print root) →
      ((s.engineAfter history disk).closure policy root).run
        = .error (.error (.invalidPath (s.storeDir.print root)))) ∧
    (Registered history (s.storeDir.print root) →
      ∃ found, ((s.engineAfter history disk).closure policy root).run = .ok found ∧
        ∀ p ∈ found, Registered history (s.storeDir.print p)) :=
  ⟨(answersFor_registered disk h).closure_of_not_valid policy,
    (answersFor_registered disk h).exists_closure policy⟩

end

/-! ### A store in memory -/

/-- The store in the default directory, with its database in memory. -/
def inMemory : LocalStore := ⟨.default, [], ⟨.memory, .readOnly⟩⟩

abbrev fullPath (p : StorePath) : Text := inMemory.storeDir.print p

/-- Registers a path of the store in memory. -/
def add (p : StorePath) (deriver : Option Text) (references : Increasing Text) : Statement :=
  .register (.plain (fullPath p) deriver references)

theorem parses_add {deriver : Option Text} {references : Increasing Text}
    (h : ∀ t ∈ deriver, t ≠ [] → inMemory.storeDir.Reads t) :
    (add p deriver references).Parses inMemory.storeDir :=
  ⟨inMemory.storeDir.reads_print p, h⟩

/-- A path is registered before its deriver, to which it refers, and one output never is. -/
private def early : List Statement :=
  [add default (some (fullPath xDrv)) (.singleton (fullPath xDrv)),
    add xDrv (some []) (.singleton (text "/nowhere")),
    .registerOutput (fullPath xDrv) (text "out") (fullPath default),
    .registerOutput (fullPath xDrv) (text "doc") (fullPath xDoc)]

theorem closure_of_early :
    (∀ statement ∈ early, statement.Parses inMemory.storeDir) ∧
      Registered early (fullPath default) ∧
      ∃ found, ((inMemory.engineAfter early (.directory [])).closure ⟨false, true, true⟩
          default).run = .ok found ∧
        ∀ p ∈ found, Registered early (fullPath p) := by
  have hparses : ∀ statement ∈ early, statement.Parses inMemory.storeDir := by
    refine List.forall_mem_cons.2 ⟨parses_add ?_, List.forall_mem_cons.2 ⟨parses_add ?_,
      List.forall_mem_cons.2 ⟨StoreDir.reads_print .., List.forall_mem_cons.2
        ⟨StoreDir.reads_print .., List.forall_mem_nil _⟩⟩⟩⟩
    · rintro t ⟨⟩ -
      exact StoreDir.reads_print ..
    · rintro t ⟨⟩ hne
      exact absurd rfl hne
  have hroot : Registered early (fullPath default) :=
    ⟨_, List.mem_cons_self, rfl, rfl⟩
  exact ⟨hparses, hroot, (closure_of_registered hparses ⟨false, true, true⟩ default).2 hroot⟩

end LocalStore

end NixStore
