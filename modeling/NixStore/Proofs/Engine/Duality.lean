import NixStore.Proofs.Engine.Registered

/-!
# References and referrers are dual

On a store that was made by registrations, the edges that a policy follows in the direction of
referrers are those that it follows in the direction of references, turned around. References and
outputs are the same rows asked for from their other ends. Of outputs this needs that whatever has
outputs is named as a derivation, since only then it is asked for them; and of derivers, that the
deriver in the record of a path is the derivation which has the path as an output.

So a path is in the closure of another one exactly if that one is in its flipped closure.
-/

namespace NixStore

namespace Engine

/-- Whatever has recorded outputs is named as a derivation. -/
def NamesDerivations (e : Engine Id) : Prop :=
  ∀ p qs, Answers (e.outputs p) qs → qs ≠ [] → p.isDerivation

/-- The deriver in the record of a valid path is a valid derivation exactly if the path is one of
its recorded outputs. -/
def DeriversAgree (e : Engine Id) : Prop :=
  ∀ p d info qs, Answers (e.isValid p) true → Answers (e.isValid d) true →
    Answers (e.pathInfo p) (some info) → Answers (e.outputs d) qs → (info.deriver = some d ↔ p ∈ qs)

end Engine

namespace LocalStore

open Engine (Answers)

variable {s : LocalStore} {history : List Statement} {disk : FileNode} {p q a b : StorePath}

theorem answers_isValid_of_registered (disk : FileNode)
    (hp : Registered history (s.storeDir.print p)) :
    Answers ((s.engineAfter history disk).isValid p) true := by
  have h : Answers ((s.engineAfter history disk).isValid p) _ := answers_isValid
  rwa [Tables.isValid_after.2 hp] at h

section

variable (h : ∀ statement ∈ history, statement.Parses s.storeDir)

include h

/-! ## What the rows have to say -/

theorem namesDerivations_iff : (s.engineAfter history disk).NamesDerivations ↔
    ∀ p q, (Tables.after history).Makes (s.storeDir.print p) (s.storeDir.print q) →
      p.isDerivation := by
  constructor
  · intro hnames p q hmakes
    obtain ⟨qs, hqs, hmem⟩ := exists_outputs disk h p
    exact hnames p qs hqs (List.ne_nil_of_mem ((hmem q).2 hmakes))
  · intro hmakes p qs hqs hne
    obtain ⟨os, hos, hmem⟩ := exists_outputs disk h p
    obtain rfl := hqs.unique hos
    obtain ⟨q, hq⟩ := List.exists_mem_of_ne_nil qs hne
    exact hmakes p q ((hmem q).1 hq)

theorem deriversAgree_iff : (s.engineAfter history disk).DeriversAgree ↔
    ∀ p d, Registered history (s.storeDir.print p) → Registered history (s.storeDir.print d) →
      ((Tables.after history).Derives (s.storeDir.print p) (s.storeDir.print d) ↔
        (Tables.after history).Makes (s.storeDir.print d) (s.storeDir.print p)) := by
  constructor
  · intro hagree p d hp hd
    obtain ⟨info, hinfo, -, hderiver⟩ := exists_pathInfo disk h
      (Tables.isValid_after.2 hp)
    obtain ⟨qs, hqs, hmem⟩ := exists_outputs disk h d
    rw [← hderiver, ← hmem]
    exact hagree p d info qs (answers_isValid_of_registered disk hp)
      (answers_isValid_of_registered disk hd) hinfo hqs
  · intro hagree p d info qs hp hd hinfo hqs
    have hp := Tables.isValid_after.1 (answers_isValid.unique hp)
    have hd := Tables.isValid_after.1 (answers_isValid.unique hd)
    obtain ⟨info', hinfo', -, hderiver⟩ := exists_pathInfo disk h
      (Tables.isValid_after.2 hp)
    obtain rfl := Option.some.inj (hinfo.unique hinfo')
    obtain ⟨qs', hqs', hmem⟩ := exists_outputs disk h d
    obtain rfl := hqs.unique hqs'
    rw [hderiver, hmem]
    exact hagree p d hp hd

/-! ## Edges turned around -/

variable (hnames : (s.engineAfter history disk).NamesDerivations)
  (outputs derivers : Bool)
  (hderivers : derivers → (s.engineAfter history disk).DeriversAgree)
  (hp : Registered history (s.storeDir.print p)) (hq : Registered history (s.storeDir.print q))

include hnames hderivers hp hq

theorem flipped_edge_of_edge
    (hedge : (s.engineAfter history disk).Edge ⟨false, outputs, derivers⟩ p q) :
    (s.engineAfter history disk).Edge ⟨true, outputs, derivers⟩ q p := by
  have hvalid := answers_isValid_of_registered disk hp
  cases hedge with
  | reference _ record member =>
    obtain ⟨info, hinfo, hmem, -⟩ := exists_pathInfo disk h (Tables.isValid_after.2 hp)
    obtain rfl := Option.some.inj (hinfo.unique record)
    obtain ⟨qs, hqs, hqsmem⟩ := exists_referrers disk h q
    exact .referrer rfl hqs ((hqsmem p).2 ((hmem q).1 member))
  | output _ wanted _ recorded member =>
    obtain ⟨os, hos, hosmem⟩ := exists_outputs disk h p
    obtain rfl := hos.unique recorded
    obtain ⟨qs, hqs, hqsmem⟩ := exists_derivers disk h q
    exact .maker rfl wanted hqs ((hqsmem p).2 ((hosmem q).1 member))
  | deriver _ wanted record member =>
    obtain ⟨qs, hqs, -⟩ := exists_outputs disk h q
    have hmem := (hderivers wanted p q _ qs hvalid (answers_isValid_of_registered disk hq) record
      hqs).1 member
    exact .product rfl wanted (hnames q qs hqs (List.ne_nil_of_mem hmem)) hqs hmem hvalid
  | referrer flipped | maker flipped | product flipped => cases flipped

theorem edge_of_flipped_edge
    (hedge : (s.engineAfter history disk).Edge ⟨true, outputs, derivers⟩ q p) :
    (s.engineAfter history disk).Edge ⟨false, outputs, derivers⟩ p q := by
  obtain ⟨info, hinfo, hmem, -⟩ := exists_pathInfo disk h (Tables.isValid_after.2 hp)
  have hvalid := answers_isValid_of_registered disk hq
  cases hedge with
  | reference forward | output forward | deriver forward => cases forward
  | referrer _ recorded member =>
    obtain ⟨qs, hqs, hqsmem⟩ := exists_referrers disk h q
    obtain rfl := hqs.unique recorded
    exact .reference rfl hinfo ((hmem q).2 ((hqsmem p).1 member))
  | maker _ wanted recorded member =>
    obtain ⟨qs, hqs, hqsmem⟩ := exists_derivers disk h q
    obtain rfl := hqs.unique recorded
    obtain ⟨os, hos, hosmem⟩ := exists_outputs disk h p
    have hqos := (hosmem q).2 ((hqsmem p).1 member)
    exact .output rfl wanted (hnames p os hos (List.ne_nil_of_mem hqos)) hos hqos hvalid
  | product _ wanted _ recorded member =>
    exact .deriver rfl wanted hinfo ((hderivers wanted p q info _
      (answers_isValid_of_registered disk hp) hvalid hinfo recorded).2 member) hvalid

end

/-- **References and referrers are dual.** On a store that was made by registrations, a valid path
is in the closure of another one if and only if that one is in its flipped closure. -/
theorem mem_closure_iff_mem_flipped (h : ∀ statement ∈ history, statement.Parses s.storeDir)
    (hnames : (s.engineAfter history disk).NamesDerivations) (outputs derivers : Bool)
    (hderivers : derivers → (s.engineAfter history disk).DeriversAgree)
    (ha : Registered history (s.storeDir.print a)) (hb : Registered history (s.storeDir.print b)) :
    ∃ found found',
      ((s.engineAfter history disk).closure ⟨false, outputs, derivers⟩ a).run = .ok found ∧
      ((s.engineAfter history disk).closure ⟨true, outputs, derivers⟩ b).run = .ok found' ∧
      (b ∈ found ↔ a ∈ found') := by
  have hanswers := answersFor_registered disk h
  obtain ⟨found, hfound, -⟩ := hanswers.exists_closure ⟨false, outputs, derivers⟩ ha
  obtain ⟨found', hfound', -⟩ := hanswers.exists_closure ⟨true, outputs, derivers⟩ hb
  refine ⟨found, found', hfound, hfound', ?_⟩
  rw [Engine.mem_closure_iff_reachable hfound, Engine.mem_closure_iff_reachable hfound']
  constructor
  · exact hanswers.reachable_reverse
      (fun p q ↦ flipped_edge_of_edge h hnames outputs derivers hderivers) ha
  · exact hanswers.reachable_reverse
      (fun q p hq hp ↦ edge_of_flipped_edge h hnames outputs derivers hderivers hp hq) hb

/-- A derivation and its output, which refers to it and has it for its deriver. -/
private def sale : List Statement :=
  [add xDrv none .empty,
    add default (some (fullPath xDrv)) (.singleton (fullPath xDrv)),
    .registerOutput (fullPath xDrv) (text "out") (fullPath default)]

private theorem makes_and_derives_after_sale (p q : Text) :
    ((Tables.after sale).Makes p q ↔ p = fullPath xDrv ∧ q = fullPath default) ∧
      ((Tables.after sale).Derives p q ↔ p = fullPath default ∧ q = fullPath xDrv) := by
  obtain ⟨a, b, htables, ha, haid, had, hb, hbid, hbd⟩ : ∃ a b, Tables.after sale
      = ⟨[a, b], [⟨2, 1⟩], [⟨1, text "out", fullPath default⟩], 2⟩ ∧
        a.path = fullPath xDrv ∧ a.id = 1 ∧ a.deriver = .null ∧
        b.path = fullPath default ∧ b.id = 2 ∧ b.deriver = .text (fullPath xDrv) :=
    ⟨_, _, rfl, rfl, rfl, rfl, rfl, rfl, rfl⟩
  constructor
  · simp [Tables.Makes, Tables.Holds, htables, ha, haid, hbid, eq_comm]
  · simp [Tables.Derives, htables, had, hb, hbd, eq_comm]

theorem closure_of_sale :
    (∀ statement ∈ sale, statement.Parses inMemory.storeDir) ∧
      (inMemory.engineAfter sale (.directory [])).NamesDerivations ∧
      (inMemory.engineAfter sale (.directory [])).DeriversAgree ∧
      ∃ found found',
        ((inMemory.engineAfter sale (.directory [])).closure ⟨false, true, true⟩ default).run
          = .ok found ∧
        ((inMemory.engineAfter sale (.directory [])).closure ⟨true, true, true⟩ xDrv).run
          = .ok found' ∧
        (xDrv ∈ found ↔ default ∈ found') := by
  have hparses : ∀ statement ∈ sale, statement.Parses inMemory.storeDir := by
    refine List.forall_mem_cons.2 ⟨parses_add nofun, List.forall_mem_cons.2
      ⟨parses_add ?_, List.forall_mem_singleton.2 (StoreDir.reads_print ..)⟩⟩
    rintro t ⟨⟩ -
    exact StoreDir.reads_print ..
  have hnames : (inMemory.engineAfter sale (.directory [])).NamesDerivations := by
    refine (namesDerivations_iff hparses).2 fun p q hmakes ↦ ?_
    rw [StoreDir.print_injective ((makes_and_derives_after_sale _ _).1.1 hmakes).1]
    rfl
  have hagree : (inMemory.engineAfter sale (.directory [])).DeriversAgree := by
    refine (deriversAgree_iff hparses).2 fun p d _ _ ↦ ?_
    rw [(makes_and_derives_after_sale _ _).1, (makes_and_derives_after_sale _ _).2, and_comm]
  have hdrv : Registered sale (fullPath xDrv) := ⟨_, List.mem_cons_self, rfl, rfl⟩
  have hpath : Registered sale (fullPath default) :=
    ⟨_, List.mem_cons_of_mem _ List.mem_cons_self, rfl, rfl⟩
  exact ⟨hparses, hnames, hagree,
    mem_closure_iff_mem_flipped hparses hnames true true (fun _ ↦ hagree) hpath hdrv⟩

end LocalStore

end NixStore
