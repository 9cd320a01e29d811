import NixStore.Text.Utf8

/-!
# Errors of the database

What can go wrong with a statement on the tables, with the messages of the database engine.
-/

namespace NixStore

/-- The storage classes of values other than null. -/
inductive StorageClass where
  | integer
  | real
  | text
  | blob
deriving DecidableEq, Repr

/-- The name of a storage class in a message. -/
def StorageClass.label : StorageClass → String
  | integer => "Integer"
  | real => "Real"
  | text => "Text"
  | blob => "Blob"

/-- What an option in the address of a database may choose. -/
inductive OptionKind where
  | access
  | cache
deriving DecidableEq, Repr

/-- The name of what is chosen, in a message. -/
def OptionKind.label : OptionKind → String
  | access => "access"
  | cache => "cache"

/-- Why a statement failed, or a database could not be opened. -/
inductive DatabaseError where
  | noRows
  | noSuchTable (name : String)
  /-- A row with this value in a column without repetition exists. -/
  | unique (table column : String)
  | notNull (table column : String)
  | foreignKey
  /-- A column holds a value of a class that its reader does not take. -/
  | wrongType (found : Option StorageClass) (index : Nat) (column : String)
  | readOnly
  | notDatabase
  /-- A table that the database keeps for itself is to be dropped. -/
  | undroppable (table : String)
  /-- A file cannot be opened; one that a statement needs has no path in the message. -/
  | cannotOpen (path : Option Bytes)
  | diskIo
  | zeroByteInPath (position : Nat)
  /-- An address names another computer. -/
  | badAuthority (authority : Bytes)
  | noSuchMode (kind : OptionKind) (value : Bytes)
  /-- An address asks for more than it has asked for before. -/
  | modeNotAllowed (value : Bytes)
  /-- An address names a way to reach files that is not known. -/
  | noSuchFileSystem (name : Bytes)
deriving DecidableEq, Repr

def DatabaseError.message : DatabaseError → String
  | noRows => "Query returned no rows"
  | noSuchTable name => s!"no such table: {name}"
  | unique table column => s!"UNIQUE constraint failed: {table}.{column}"
  | notNull table column => s!"NOT NULL constraint failed: {table}.{column}"
  | foreignKey => "FOREIGN KEY constraint failed"
  | wrongType found index column =>
    let label := (found.map StorageClass.label).getD "Null"
    s!"Invalid column type {label} at index: {index}, name: {column}"
  | readOnly => "attempt to write a readonly database"
  | notDatabase => "file is not a database"
  | undroppable table => s!"table {table} may not be dropped"
  | cannotOpen none => "unable to open database file"
  | cannotOpen (some path) => s!"unable to open database file: {Text.display path}"
  | diskIo => "disk I/O error"
  | zeroByteInPath position => s!"nul byte found in provided data at position: {position}"
  | badAuthority authority => s!"invalid uri authority: {Text.display authority}"
  | noSuchMode kind value => s!"no such {kind.label} mode: {Text.display value}"
  | modeNotAllowed value => s!"access mode not allowed: {Text.display value}"
  | noSuchFileSystem name => s!"no such vfs: {Text.display name}"

end NixStore
