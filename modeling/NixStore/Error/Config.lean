import NixStore.Error.Os
import NixStore.StorePath.Error
import NixStore.Text.Utf8

/-!
# Errors of the configuration

Why a configuration could not be read, or cannot be used.
-/

namespace NixStore

/-- Why a file could not be read as text. -/
inductive ReadError where
  | os (e : OsError)
  | notUtf8
deriving DecidableEq, Repr

/-- The message for a file that could not be read. -/
def ReadError.message : ReadError → String
  | os e => e.message
  | notUtf8 => "stream did not contain valid UTF-8"

/-- What makes a configuration unusable. -/
inductive InvalidConfig where
  | zeroChunkSize
  | zeroChannelCapacity
  | storeDirNotUtf8 (path : Bytes)
  | storeDir (cause : StorePathError)
  /-- A reason given by a store of another kind. -/
  | other (reason : Text)
deriving DecidableEq, Repr

def InvalidConfig.message : InvalidConfig → String
  | zeroChunkSize => "chunk_size must be greater than 0"
  | zeroChannelCapacity => "channel_capacity must be greater than 0"
  | storeDirNotUtf8 path => s!"store_dir is not valid UTF-8: {Text.display path}"
  | storeDir cause => cause.message
  | other reason => String.ofList reason

/-- Why there is no configuration to use. -/
inductive ConfigError where
  | unreadable (path : Bytes) (cause : ReadError)
  /-- The file is not a document, or not one of a configuration. -/
  | malformed
  | invalid (cause : InvalidConfig)
deriving DecidableEq, Repr

def ConfigError.message : ConfigError → String
  | unreadable path cause =>
    s!"Failed to read config file {Text.display path}: {cause.message}"
  | malformed => "Failed to parse TOML"
  | invalid cause => s!"Invalid configuration: {cause.message}"

end NixStore
