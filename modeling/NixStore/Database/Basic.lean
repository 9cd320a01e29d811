import NixStore.Database.Tables
import NixStore.Error.Engine

/-!
# The database of a store

The tables, any of which may be missing. A statement that names a missing table fails; of several,
the one that it names first is reported. Whoever only reads cannot change anything, but finds out
about a missing table first.
-/

namespace NixStore

/-- The tables by name. -/
inductive TableName where
  | paths
  | references
  | outputs
deriving DecidableEq, Repr

def TableName.label : TableName → String
  | paths => "ValidPaths"
  | references => "Refs"
  | outputs => "DerivationOutputs"

def TableName.ofText? (t : Text) : Option TableName :=
  [paths, references, outputs].find? fun n ↦ n.label.toList.map Char.toLower = t

/-- The tables and which of them are missing; a missing table has no rows. -/
structure Database where
  tables : Tables
  missing : List TableName
  /-- The numbers given out are counted in a table of their own, which is made together with that
  of valid paths and stays when that is dropped. -/
  counted : Bool
deriving DecidableEq, Repr

namespace Database

def fresh : Database := ⟨.empty, [], true⟩

/-- A database that is not one of a store. -/
def foreign : Database := ⟨.empty, [.paths, .references, .outputs], false⟩

/-- Fails if one of the tables that a statement names is missing. -/
def require (db : Database) : List TableName → Except DatabaseError Unit
  | [] => .ok ()
  | name :: rest =>
    if name ∈ db.missing then .error (.noSuchTable name.label) else db.require rest

def complete (db : Database) : Database := { db with missing := [], counted := true }

/-! ## Questions -/

/-- Whether the table of valid paths is there. -/
def hasSchema (db : Database) : Bool := !db.missing.contains .paths

def record? (db : Database) (path : Text) : Except DatabaseError (Option PathRecord) := do
  db.require [.paths]
  match db.tables.row? path with
  | none => return none
  | some row => return some (← row.read)

/-- The references of the path with a number. -/
def references (db : Database) (id : Int) : Except DatabaseError (List Text) := do
  db.require [.references, .paths]
  return if 0 ≤ id then db.tables.referencesOf id.toNat else []

/-- The paths that refer to a path. -/
def referrers (db : Database) (path : Text) : Except DatabaseError (List Text) := do
  db.require [.references, .paths]
  return db.tables.referrersOf path

def isValid (db : Database) (path : Text) : Except DatabaseError Bool := do
  db.require [.paths]
  return db.tables.isValid path

/-- The derivations that have a path as an output. -/
def derivers (db : Database) (path : Text) : Except DatabaseError (List Text) := do
  db.require [.outputs, .paths]
  return db.tables.deriversOf path

def outputs (db : Database) (drv : Text) : Except DatabaseError (List Text) := do
  db.require [.outputs, .paths]
  return db.tables.outputsOf drv

/-- A path of the directory `dir` with a hash part. -/
def ofHashPart (db : Database) (dir hash : Text) : Except DatabaseError (Option Text) := do
  db.require [.paths]
  return db.tables.startingWith? (dir ++ '/' :: hash)

/-! ## Changes -/

/-- Who makes a statement. -/
inductive Access where
  | readOnly
  | readWrite
deriving DecidableEq, Repr

/-- Fails for those who only read. -/
def Access.mayWrite : Access → Except DatabaseError Unit
  | readOnly => .error .readOnly
  | readWrite => .ok ()

/-- Enters a registration with its seconds. The table of references is needed only if there are any
to be added. -/
def enter (db : Database) (access : Access) (r : Registration) (time : Int64) :
    Except DatabaseError (Nat × Database) := do
  db.require [.paths]
  access.mayWrite
  let (id, tables) ← db.tables.register r time
  -- found out last, and then nothing of the registration stays
  if tables.references ≠ db.tables.references then db.require [.references]
  return (id, { db with tables := tables })

/-- Registers a path. Without seconds this breaks off, before any statement is made. -/
def register (db : Database) (access : Access) (r : Registration) : Except Fault (Nat × Database) :=
  match r.time? with
  | none => .error (.panicked (some (text "attempt to negate with overflow")))
  | some time => (db.enter access r time).mapError fun e ↦ .error (.database e)

def registerOutput (db : Database) (access : Access) (drv id path : Text) :
    Except DatabaseError Database := do
  db.require [.outputs, .paths]
  access.mayWrite
  return { db with tables := db.tables.registerOutput drv id path }

/-- Adds a row to the table of valid paths as it stands. -/
def insertRow (db : Database) (row : PathRow) : Except DatabaseError Database := do
  db.require [.paths]
  if row.hash = .null then throw (.notNull "ValidPaths" "hash")
  if row.registrationTime = .null then throw (.notNull "ValidPaths" "registrationTime")
  let tables ← db.tables.insertRow fun id ↦ { row with
    id := id
    hash := row.hash.inTextColumn
    registrationTime := row.registrationTime.inIntegerColumn
    deriver := row.deriver.inTextColumn
    archiveSize := row.archiveSize.inIntegerColumn
    ultimate := row.ultimate.inIntegerColumn
    signatures := row.signatures.inTextColumn
    contentAddress := row.contentAddress.inTextColumn }
  return { db with tables := tables }

/-- Deletes a path. What removes its reference to itself needs the table of references. -/
def delete (db : Database) (path : Text) : Except DatabaseError (Nat × Database) := do
  db.require [.paths]
  if .references ∈ db.missing then throw (.noSuchTable "main.Refs")
  let (n, tables) ← db.tables.delete path
  return (n, { db with tables := tables })

/-- The name of a schema, empty if it is not given, and that of a table in it. -/
def schemaAndTable (name : Text) : Text × Text :=
  match name.dropWhile (· ≠ '.') with
  | [] => ([], name)
  | _ :: table => (name.takeWhile (· ≠ '.'), table)

/-- The table that the database keeps for itself under a name in lower case, as messages name it:
the list of its tables, that of the tables of a connection, or that of the numbers given out. -/
def ownTable? (db : Database) (schema table : Text) : Option String :=
  let schema := String.ofList schema
  let table := String.ofList table
  let tables := ["sqlite_master", "sqlite_schema"]
  let temporaryTables := ["sqlite_temp_master", "sqlite_temp_schema"]
  if schema = "temp" then
    if table ∈ tables ++ temporaryTables then some "sqlite_temp_master" else none
  else if schema = "" ∧ table ∈ temporaryTables then some "sqlite_temp_master"
  else if schema ≠ "" ∧ schema ≠ "main" then none
  else if table ∈ tables then some "sqlite_master"
  else if table = "sqlite_sequence" ∧ db.counted then some table
  else none

/-- Takes a table away. The valid paths go one after the other, so any reference between them is
in the way, and they take the outputs and the memory of the greatest number with them. -/
def without (db : Database) (table : TableName) : Except DatabaseError Database := do
  let db := { db with missing := table :: db.missing }
  match table with
  | .paths =>
    if db.tables.references ≠ [] then throw .foreignKey
    return { db with tables := .empty }
  | .references => return { db with tables := { db.tables with references := [] } }
  | .outputs => return { db with tables := { db.tables with outputs := [] } }

/-- Drops the table with a name, in any letter case. -/
def drop (db : Database) (name : Text) : Except DatabaseError Database := do
  let (schema, table) := schemaAndTable (name.map Char.toLower)
  if let some own := db.ownTable? schema table then throw (.undroppable own)
  let known := schema = [] ∨ schema = text "main"
  match if known then TableName.ofText? table else none with
  | none => throw (.noSuchTable (String.ofList name))
  | some table =>
    if table ∈ db.missing then throw (.noSuchTable (String.ofList name))
    db.without table

end Database

end NixStore
