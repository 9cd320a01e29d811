import NixStore.Engine.Basic

/-!
# Engines with fixed answers

The simplest stores: every path is valid, its record is told by a function, all paths have the same
archive, and there are no other answers. With a few paths to speak of they serve as examples.
-/

namespace NixStore

/-- A derivation, beside the default path that is named `x`. -/
def xDrv : StorePath :=
  ⟨default, ⟨text "x.drv", by decide, by decide, List.all_eq_true.1 rfl, rfl⟩⟩

/-- One more path beside them. -/
def xDoc : StorePath :=
  ⟨default, ⟨text "x-doc", by decide, by decide, List.all_eq_true.1 rfl, rfl⟩⟩

/-- A record that tells of a path no more than its deriver and what it refers to. -/
def PathInfo.plain (p : StorePath) (deriver : Option StorePath) (references : List StorePath) :
    PathInfo :=
  ⟨p, [], none, deriver, references, [], .epoch, false, none⟩

/-- The engine with some records, and one archive. -/
def Engine.fixed {m : Type → Type} [Monad m]
    (record : StorePath → ExceptT Fault m (Option PathInfo))
    (archive : Producer (Except Fault Unit)) : Engine m where
  storeDir := default
  pathInfo := record
  isValid _ := pure true
  referrers _ := pure []
  outputs _ := pure []
  derivers _ := pure []
  ofHashPart _ := pure none
  archive _ := pure archive

end NixStore
