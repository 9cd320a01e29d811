import NixStore.Archive.Still
import NixStore.Config.Basic
import NixStore.Database.Volume
import NixStore.Engine.Basic

/-!
# Local stores

A local store is a database and a directory on disk. Its engine reads the database anew for every
statement, so what others commit between two statements of one question shows; a path that the
database holds and that is not one of the store's fails the question.
-/

namespace NixStore

/-- Where a local store is. -/
structure LocalStore where
  storeDir : StoreDir
  /-- The directory in which store paths are on disk. -/
  physicalDir : Bytes
  database : Connection

namespace LocalStore

def statementFailed (e : DatabaseError) : Fault := .error (.database e)

/-- Reads a full path that the database holds. -/
def parse (s : LocalStore) (full : Text) : Except Fault StorePath :=
  (s.storeDir.parse full).mapError fun e ↦ .error (.corrupt e)

/-- Reads full paths up to the first that is malformed. -/
def parseAll (s : LocalStore) (fulls : List Text) : Except Fault (List StorePath) :=
  fulls.mapM s.parse

/-- The record of a path, from the database's. -/
def info (s : LocalStore) (p : StorePath) (record : PathRecord) (references : List Text) :
    Except Fault PathInfo := do
  let references ← s.parseAll references
  let deriver ← record.deriver.mapM s.parse
  return {
    path := p
    archiveHash := record.hash
    archiveSize := record.archiveSize
    deriver := deriver
    references := references
    signatures := record.signatureList
    registrationTime := record.registrationTime
    ultimate := record.ultimate
    contentAddress := record.contentAddress }

variable {m : Type → Type} [Monad m]

def statement {α : Type} (read : m (Except DatabaseError Database))
    (query : Database → Except DatabaseError α) : ExceptT Fault m α := do
  match ← read with
  | .error e => throw (statementFailed e)
  | .ok db =>
    match query db with
    | .error e => throw (statementFailed e)
    | .ok a => return a

/-- Gives an outcome that is known already. -/
def known {α : Type} (x : Except Fault α) : ExceptT Fault m α := ExceptT.mk (pure x)

def isValid (s : LocalStore) (read : m (Except DatabaseError Database)) (p : StorePath) :
    ExceptT Fault m Bool :=
  statement read (·.isValid (s.storeDir.print p))

/-- The producer of a path's archive, if the path is valid. -/
def archive (s : LocalStore) (read : m (Except DatabaseError Database)) (disk : m FileNode)
    (p : StorePath) : ExceptT Fault m (Producer (Except Fault Unit)) := do
  if ← s.isValid read p then
    let disk ← disk
    return disk.archiveProducer (FilePath.join s.physicalDir p.toBytes)
  else throw (.error (.invalidPath (s.storeDir.print p)))

/-- The engine of a local store; `read` reads its database, and `disk` looks at its files. -/
def engine (s : LocalStore) (read : m (Except DatabaseError Database)) (disk : m FileNode) :
    Engine m where
  storeDir := s.storeDir
  pathInfo p := do
    match ← statement read (·.record? (s.storeDir.print p)) with
    | none => return none
    | some record =>
      let references ← statement read (·.references record.id)
      return some (← known (s.info p record references))
  isValid := s.isValid read
  referrers p := do
    known (s.parseAll (← statement read (·.referrers (s.storeDir.print p))))
  outputs drv := do
    known (s.parseAll (← statement read (·.outputs (s.storeDir.print drv))))
  derivers p := do
    known (s.parseAll (← statement read (·.derivers (s.storeDir.print p))))
  ofHashPart hash := do
    known ((← statement read (·.ofHashPart s.storeDir.text hash.text)).mapM s.parse)
  archive p := do
    match ← (s.archive read disk p).run with
    | .ok producer => return producer
    | .error f => return .done (.error f)

def ofConfig (v : Volume) (c : Config) : Except EngineError LocalStore := do
  let storeDir ← c.logicalStoreDir.mapError .config
  let database ← v.openReadOnly c.database
  match v.content database.location with
  | .error e => throw (.database e)
  | .ok db =>
    if db.hasSchema then return ⟨storeDir, c.physicalStoreDir, database⟩
    else throw (.unsupported (.notStoreDatabase c.database))

end LocalStore

end NixStore
