import NixStore.Database.Address
import NixStore.Database.Basic
import NixStore.Database.Location
import NixStore.Error.Engine

/-!
# Databases in files

A file that is there and empty is a database without tables, and so is one with a single byte;
one with other contents is found not to be a database by the first statement. Opening for writing
makes a file that is missing, unless the address of the database forbids it, and adds the tables
that are. For reading, a database is named by the path of its file only, and looked for there
before it is opened.
-/

namespace NixStore

/-- A file system, and the databases that were made in it and in memory. -/
structure Volume where
  disk : FileNode
  databases : List (DatabaseLocation × Database)

/-- An open database: where it is, and whether it may be changed. -/
structure Connection where
  location : DatabaseLocation
  access : Database.Access
deriving DecidableEq, Repr

namespace Volume

def content (v : Volume) (location : DatabaseLocation) : Except DatabaseError Database :=
  match v.databases.find? fun d ↦ d.1 = location, location with
  | some (_, db), _ => .ok db
  | none, .memory => .ok .foreign
  | none, .file place =>
    match v.disk.at? place with
    | some (.file (_ :: _ :: _) _) => .error .notDatabase
    | _ => .ok .foreign

/-- Puts a database in the place of what is at a location. -/
def store (v : Volume) (location : DatabaseLocation) (db : Database) : Volume :=
  { v with databases := (location, db) :: v.databases.filter fun d ↦ d.1 ≠ location }

/-! ## Opening for reading -/

/-- Opens the file at a place for reading; `path` is the path that it was named by. -/
def openToRead (v : Volume) (path : Bytes) (place : List Bytes) : Except DatabaseError Unit :=
  match v.disk.at? place with
  | some (.file ..) => .ok ()
  | some (.directory _) | some .fifo => .error .diskIo
  | _ => .error (.cannotOpen (some path))

def openReadOnly (v : Volume) (path : Bytes) : Except EngineError Connection :=
  match v.disk.lookUp true path with
  | .error _ => .error (.databaseNotFound path)
  | .ok _ =>
    match DatabaseLocation.placeOf? v.disk path with
    | none => .error (.databaseOpen path (.cannotOpen (some path)))
    | some place =>
      match v.openToRead path place with
      | .error e => .error (.databaseOpen path e)
      | .ok () => .ok ⟨.file place, .readOnly⟩

/-! ## Opening for writing -/

/-- Makes an empty file at a place, if that is in a directory. -/
def makeFile? (v : Volume) (place : List Bytes) : Option Volume :=
  match v.disk.at? place.dropLast with
  | some (.directory _) =>
    let disk := FileNode.alterAt (fun _ ↦ some (.file [] 0o644)) place (some v.disk)
    some { v with disk := disk.getD v.disk }
  | _ => none

/-- Opens the file at a place for writing; `name` is what the database was named by. -/
def openToWrite (v : Volume) (name : Bytes) (place : List Bytes) (make : Bool) :
    Except DatabaseError Volume :=
  match v.disk.at? place, if make then v.makeFile? place else none with
  | some (.file ..), _ => .ok v
  | some .fifo, _ => .error .diskIo
  | none, some v => .ok v
  | _, _ => .error (.cannotOpen (some name))

/-- Opens what an address names; `name` is the address as it was given. -/
def openAddress (v : Volume) (name : Bytes) (address : DatabaseAddress) :
    Except DatabaseError (DatabaseLocation × Volume) := do
  if !address.isFile then return (.memory, v)
  let some place := DatabaseLocation.placeOf? v.disk address.path
    | throw (.cannotOpen (some name))
  match address.mode with
  | .readOnly =>
    v.openToRead name place
    return (.file place, v)
  | mode => return (.file place, ← v.openToWrite name place (mode = .create))

def addTables (v : Volume) (location : DatabaseLocation) (access : Database.Access) :
    Except DatabaseError Volume := do
  let db ← v.content location
  if db.missing = [] then return v
  access.mayWrite
  if location.mayHaveJournal then return v.store location db.complete
  else throw (.cannotOpen none)

def create (v : Volume) (name : Bytes) : Except EngineError (Connection × Volume) := do
  let address ← (DatabaseAddress.ofName name).mapError (.databaseOpen name)
  let (location, v) ← (v.openAddress name address).mapError (.databaseOpen name)
  let readOnly := address.mode = .readOnly ∨ (address.isFile ∧ address.immutable)
  let access : Database.Access := if readOnly then .readOnly else .readWrite
  let v ← (v.addTables location access).mapError .database
  return (⟨location, access⟩, v)

end Volume

end NixStore
