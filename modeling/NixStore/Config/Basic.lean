import NixStore.Config.Document
import NixStore.Error.Config
import NixStore.FileTree.Path
import NixStore.StorePath.Directory

/-!
# Configuration

Where a store's parts are and how its archives are cut into chunks. A configuration starts from
defaults or from a file, then takes directories from the environment, and is checked before it is
used; its fields can hold anything until then.
-/

namespace NixStore

/-- Where to find a store, and how to stream its archives. -/
structure Config where
  /-- The store directory as it appears in store paths. -/
  storeDir : Bytes
  /-- Where the store is on disk, if not there. -/
  realStoreDir : Option Bytes
  /-- The directory that holds the database, unless that is given on its own. -/
  stateDir : Bytes
  databasePath : Option Bytes
  /-- The size of the chunks of archives. -/
  chunkSize : Nat
  /-- The number of chunks kept between a producer and its consumer. -/
  channelCapacity : Nat
deriving DecidableEq, Repr

/-- What a configuration takes from the environment. -/
structure Environment where
  /-- The path of a configuration file. -/
  configFile : Option Bytes
  storeDir : Option Bytes
  stateDir : Option Bytes

namespace Config

/-- The configuration of a store that says nothing else. -/
def default : Config where
  storeDir := Text.utf8 (text "/nix/store")
  realStoreDir := none
  stateDir := Text.utf8 (text "/nix/var/nix")
  databasePath := none
  chunkSize := 64 * 1024
  channelCapacity := 4

instance : Inhabited Config := ⟨default⟩

/-- Sets the field under a key, if there is one and it takes the value. -/
def set? (c : Config) (key : Text) (value : DocumentValue) : Option Config :=
  match String.ofList key, value with
  | "store_dir", .string t => some { c with storeDir := Text.utf8 t }
  | "real_store_dir", .string t => some { c with realStoreDir := some (Text.utf8 t) }
  | "state_dir", .string t => some { c with stateDir := Text.utf8 t }
  | "db_path", .string t => some { c with databasePath := some (Text.utf8 t) }
  | "chunk_size", .number n => some { c with chunkSize := n }
  | "channel_capacity", .number n => some { c with channelCapacity := n }
  | _, _ => none

/-- Reads a document in which no key stands twice. -/
def ofDocument? (doc : Document) : Option Config :=
  if (doc.map (·.1)).Nodup then doc.foldlM (fun c (key, value) ↦ c.set? key value) default
  else none

def ofFile (path : Bytes) (contents : Except ReadError Bytes) : Except ConfigError Config := do
  let bytes ← contents.mapError (.unreadable path)
  let some t := Text.ofUtf8? bytes | throw (.unreadable path .notUtf8)
  let some c := Document.parse? t >>= ofDocument? | throw .malformed
  return c

/-- A value that is there and not empty. -/
def given? : Option Bytes → Option Bytes
  | some (b :: rest) => some (b :: rest)
  | _ => none

/-- Takes the directories that the environment names; empty names count as absent. -/
def applyEnvironment (c : Config) (env : Environment) : Config :=
  { c with
    storeDir := (given? env.storeDir).getD c.storeDir
    stateDir := (given? env.stateDir).getD c.stateDir }

def logicalStoreDir (c : Config) : Except ConfigError StoreDir :=
  match Text.ofUtf8? c.storeDir with
  | none => .error (.invalid (.storeDirNotUtf8 c.storeDir))
  | some t => (StoreDir.ofText t).mapError fun e ↦ .invalid (.storeDir e)

/-- The directory in which store paths are on disk. -/
def physicalStoreDir (c : Config) : Bytes := c.realStoreDir.getD c.storeDir

def database (c : Config) : Bytes :=
  c.databasePath.getD <|
    FilePath.join (FilePath.join c.stateDir (Text.utf8 (text "db"))) (Text.utf8 (text "db.sqlite"))

def validate (c : Config) : Except ConfigError Unit := do
  if c.chunkSize = 0 then throw (.invalid .zeroChunkSize)
  if c.channelCapacity = 0 then throw (.invalid .zeroChannelCapacity)
  discard c.logicalStoreDir

/-- The configuration of an environment, checked; `read` reads a file. -/
def load (env : Environment) (read : Bytes → Except ReadError Bytes) :
    Except ConfigError Config := do
  let c ← match env.configFile with
    | some path => ofFile path (read path)
    | none => pure default
  let c := c.applyEnvironment env
  c.validate
  return c

end Config

end NixStore
