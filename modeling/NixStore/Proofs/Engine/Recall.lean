import NixStore.Proofs.Database.Registering
import NixStore.Proofs.Engine.Registered
import NixStore.Proofs.Moment
import NixStore.Proofs.Text.Order
import NixStore.Proofs.Text.Words

/-!
# Records are read back

The engine tells of a path what was said when it was registered, no matter what was registered
since. On the way a record passes through the columns of its row, through the numbers of its
references, and through the parser of full paths; the parser is the only one that can refuse. It
refuses whole records: a deriver or a reference that is not a path of the store's directory is an
error, and is not left out.
-/

namespace NixStore

/-- The full paths that are kept for a registration made after the statements `before`: its
deriver, unless that is empty, and those of its references that have a row by then. -/
def Registration.Names (r : Registration) (before : List Statement) (full : Text) : Prop :=
  nonEmpty? r.deriver = some full ∨ full ∈ r.references ∧ (Registered before full ∨ full = r.path)

/-- A record says what was registered after the statements `before`. -/
structure PathInfo.Recalls (d : StoreDir) (before : List Statement) (r : Registration)
    (info : PathInfo) : Prop where
  path : d.print info.path = r.path
  archiveHash : info.archiveHash = r.hash
  archiveSize : info.archiveSize = r.archiveSize
  /-- Of the time the whole seconds are kept, rounded toward 1970. -/
  registrationTime : ∃ t : Int64, info.registrationTime = .ofUnix t ∧
    t.toInt = r.registrationTime.inNanoseconds.tdiv nanosecondsPerSecond
  wholeSeconds : r.registrationTime.nanoseconds = 0 → info.registrationTime = r.registrationTime
  ultimate : info.ultimate = r.ultimate
  /-- An empty text stands for none. -/
  deriver : info.deriver.map d.print = nonEmpty? r.deriver
  contentAddress : info.contentAddress = nonEmpty? r.contentAddress
  /-- Signatures are split at blanks, in their order. -/
  signatures : (r.signatures.getD []).Splits info.signatures
  joined : ∀ ws : List Text, (∀ w ∈ ws, w ≠ [] ∧ ∀ c ∈ w, ¬Text.isBlank c) →
    r.signatures = some ([' '].intercalate ws) → info.signatures = ws
  /-- References are in the order of their bytes, without repetition. -/
  references : ((info.references.map d.print).map Text.utf8).Pairwise (· < ·)
  mem_references : ∀ q, q ∈ info.references ↔
    d.print q ∈ r.references ∧ (Registered before (d.print q) ∨ d.print q = r.path)

namespace LocalStore

open Engine (Answers)

variable {s : LocalStore} {history : List Statement} {disk : FileNode} {p : StorePath}

/-- A path whose record is told is valid, and one of which it is told that it has none is not. -/
theorem isValid_of_pathInfo {answer : Option PathInfo}
    (h : ((s.engineAfter history disk).pathInfo p).run = .ok answer) :
    ((s.engineAfter history disk).isValid p).run = .ok answer.isSome := by
  have hvalid : Answers ((s.engineAfter history disk).isValid p) _ := answers_isValid
  refine hvalid.trans (congrArg Except.ok ?_)
  by_cases hp : (Tables.after history).isValid (s.storeDir.print p)
  · obtain ⟨r, time, id, -, -, hrow, -⟩ := (Tables.linked_after history).exists_registration hp
    obtain ⟨info, -, rfl⟩ := exists_info_of_answers hrow h
    exact hp
  · rw [run_pathInfo_of_no_row (Option.not_isSome_iff_eq_none.1 hp)] at h
    obtain rfl := Except.ok.inj h
    exact Bool.eq_false_iff.2 hp

/-! ## What is read back -/

theorem recalls_of_row {before : List Statement} {r : Registration} {time : Int64} {id : Nat}
    {deriver : Option StorePath} {qs : List StorePath} (htime : r.time? = some time)
    (hpath : r.path = s.storeDir.print p)
    (hqs : qs.map s.storeDir.print
      = r.references.toList.filter fun q ↦ (Tables.after before).isValid q || q = r.path)
    (hderiver : deriver.map s.storeDir.print = nonEmpty? r.deriver) :
    PathInfo.Recalls s.storeDir before r ⟨p, r.hash, r.archiveSize, deriver, qs,
      (r.record time id).signatureList, (r.record time id).registrationTime, r.ultimate,
      nonEmpty? r.contentAddress⟩ := by
  have hsplits : (r.signatures.getD []).Splits (r.record time id).signatureList := by
    rw [PathRecord.signatureList, Registration.record]
    cases r.signatures with
    | none => exact .nil
    | some t => exact Text.splits_words t
  constructor
  case path => exact hpath.symm
  case archiveHash | archiveSize | ultimate | contentAddress => rfl
  case registrationTime => exact ⟨time, rfl, Moment.toInt_toUnix? htime⟩
  case wholeSeconds => exact Moment.ofUnix_toUnix? htime
  case deriver => exact hderiver
  case signatures => exact hsplits
  case joined =>
    intro ws hws hsignatures
    rw [hsignatures] at hsplits
    have hwords := Text.words_eq_of_splits hsplits
    rw [← hwords]
    exact Text.words_eq_of_splits (Text.splits_intercalate hws)
  case references =>
    rw [hqs]
    exact Text.pairwise_utf8 (r.references.sorted.filter _)
  case mem_references =>
    intro q
    rw [← StoreDir.print_mem_map (d := s.storeDir), hqs, List.mem_filter, Bool.or_eq_true,
      Tables.isValid_after, decide_eq_true_eq]
    rfl

/-- **What was registered is read back**, whatever is registered later; a deriver or a reference
that is not a path of the store's directory fails the question, and is never left out. Whenever
there is an answer, the path is valid exactly if the answer is a record. -/
theorem pathInfo_of_registered (s : LocalStore) (history : List Statement) (disk : FileNode)
    (p : StorePath) :
    (∀ before r later, history = before ++ .register r :: later → r.path = s.storeDir.print p →
      (∃ result, (Database.after before).register .readWrite r = .ok result) →
      ((∀ full, r.Names before full → s.storeDir.Reads full) →
        ∃ info, ((s.engineAfter history disk).pathInfo p).run = .ok (some info) ∧
          info.Recalls s.storeDir before r) ∧
      ∀ full, r.Names before full → ¬s.storeDir.Reads full →
        ∃ full' e, r.Names before full' ∧ s.storeDir.parse full' = .error e ∧
          ((s.engineAfter history disk).pathInfo p).run = .error (.error (.corrupt e))) ∧
    (¬Registered history (s.storeDir.print p) →
      ((s.engineAfter history disk).pathInfo p).run = .ok none) ∧
    ∀ answer, ((s.engineAfter history disk).pathInfo p).run = .ok answer →
      ((s.engineAfter history disk).isValid p).run = .ok answer.isSome := by
  refine ⟨fun before r later hhistory hpath hregister ↦ ?_, fun hnot ↦ ?_, fun answer ↦
    isValid_of_pathInfo⟩
  · obtain ⟨⟨time, htime⟩, hfirst⟩ := Database.exists_register_iff.1 hregister
    obtain ⟨id, hrow, -, hreferences⟩ := Tables.recall_after before later htime hfirst
    rw [← hhistory, hpath] at hrow
    rw [← hhistory] at hreferences
    have hrun : ((s.engineAfter history disk).pathInfo p).run = _ := run_pathInfo_of_row hrow
    have hnames : ∀ full, full ∈ (Tables.after history).referencesOf id ∨
        (r.record time id).deriver = some full ↔ r.Names before full := fun full ↦ by
      rw [hreferences, List.mem_filter, Bool.or_eq_true, Tables.isValid_after, decide_eq_true_eq]
      exact or_comm
    rcases s.info_cases p (r.record time id) ((Tables.after history).referencesOf id) with
      ⟨deriver, qs, hinfo, hqs, hderiver⟩ | ⟨full, e, hfull, he, hinfo⟩
    · rw [hinfo] at hrun
      refine ⟨fun _ ↦ ⟨_, hrun, recalls_of_row htime hpath (hqs.trans hreferences) hderiver⟩, ?_⟩
      -- all that is named was read
      intro full hfull hnot
      refine absurd ?_ hnot
      rcases (hnames full).2 hfull with hmem | hmem
      · rw [← hqs] at hmem
        obtain ⟨q, -, rfl⟩ := List.mem_map.1 hmem
        exact ⟨q, s.storeDir.parse_print q⟩
      · rw [← hderiver] at hmem
        obtain ⟨d, -, rfl⟩ := Option.map_eq_some_iff.1 hmem
        exact ⟨d, s.storeDir.parse_print d⟩
    · rw [hinfo] at hrun
      constructor
      · intro hreads
        exact absurd (hreads full ((hnames full).1 hfull)) (StoreDir.not_reads he)
      · exact fun _ _ _ ↦ ⟨full, e, (hnames full).1 hfull, he, hrun⟩
  · exact run_pathInfo_of_no_row (Option.not_isSome_iff_eq_none.1 (mt Tables.isValid_after.1 hnot))

private def entry (p : StorePath) (deriver : Text) (references : Increasing Text) : Registration :=
  ⟨fullPath p, text "sha256:0", .epoch, some deriver, some 18446744073709551615,
    true, some (text "a:1 b:2"), some [], references⟩

/-- It refers to what was registered before it, to itself, and to what never was a path. -/
private def kept : Registration :=
  entry xDoc [] ⟨[fullPath default, fullPath xDoc,
    text "nowhere"], by decide⟩

/-- The second registration of a path fails; the deriver that the first one names is malformed. -/
private def entries : List Statement :=
  [.register (entry default (text "unknown") .empty), .register kept,
    .register (entry xDoc [] .empty)]

theorem pathInfo_of_entries :
    (∃ info, ((inMemory.engineAfter entries (.directory [])).pathInfo xDoc).run = .ok (some info) ∧
      info.Recalls inMemory.storeDir [.register (entry default (text "unknown") .empty)] kept) ∧
    ∃ full e, (entry default (text "unknown") .empty).Names [] full ∧
      inMemory.storeDir.parse full = .error e ∧
      ((inMemory.engineAfter entries (.directory [])).pathInfo default).run
        = .error (.error (.corrupt e)) := by
  have hrecalls := pathInfo_of_registered inMemory entries (.directory [])
  constructor
  · refine ((hrecalls xDoc).1 _ kept _ rfl rfl (Database.exists_register_iff.2 ⟨⟨0, rfl⟩, ?_⟩)).1 ?_
    · rintro ⟨r, hr, hpath, -⟩
      obtain rfl := Statement.register.inj (List.mem_singleton.1 hr)
      exact absurd hpath (by decide)
    · rintro full (hderiver | ⟨-, ⟨r, hr, rfl, -⟩ | rfl⟩)
      · cases hderiver
      · obtain rfl := Statement.register.inj (List.mem_singleton.1 hr)
        exact StoreDir.reads_print ..
      · exact StoreDir.reads_print ..
  · refine ((hrecalls default).1 [] _ _ rfl rfl (Database.exists_register_iff.2 ⟨⟨0, rfl⟩, ?_⟩)).2
      (text "unknown") (.inl rfl) ?_
    · rintro ⟨r, hr, -⟩
      exact List.not_mem_nil hr
    · rintro ⟨p, hp⟩
      cases hp

end LocalStore

end NixStore
