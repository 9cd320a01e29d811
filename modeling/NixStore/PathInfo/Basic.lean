import NixStore.Moment
import NixStore.StorePath.Basic

/-!
# Records of store paths

What a store knows about one valid path. Signatures are texts of the form `key:signature`; the
name of a key usually ends in a generation, a hyphen and digits, which is ignored when signatures
are looked up by the name of a cache.
-/

namespace NixStore

/-- The record of one valid path. -/
structure PathInfo where
  path : StorePath
  /-- The hash of the archive as recorded, with its scheme; empty if none was recorded. -/
  archiveHash : Text
  archiveSize : Option UInt64
  deriver : Option StorePath
  /-- In the store's own order. -/
  references : List StorePath
  /-- In the store's own order. -/
  signatures : List Text
  registrationTime : Moment
  /-- Built here and not fetched from elsewhere. -/
  ultimate : Bool
  /-- How the path's contents are addressed, if they are. -/
  contentAddress : Option Text
deriving DecidableEq

/-- The name of a signature's key: what stands before the first colon. -/
def keyName? (signature : Text) : Option Text :=
  if ':' ∈ signature then some (signature.takeWhile (· ≠ ':')) else none

/-- A key's name without a hyphen and digits at its end. -/
def withoutGeneration (name : Text) : Text :=
  let back := name.reverse
  match back.takeWhile Char.isDigit, back.dropWhile Char.isDigit with
  -- at least one digit, and a hyphen in front of them
  | _ :: _, '-' :: base => base.reverse
  | _, _ => name

namespace PathInfo

/-- The names of the keys of a record's signatures, in their order. -/
def signees (info : PathInfo) : List Text := info.signatures.filterMap keyName?

/-- Whether one of the signatures was made by one of the named caches. -/
def isSignedBy (info : PathInfo) (caches : List Text) : Bool :=
  info.signees.any fun name ↦ caches.contains (withoutGeneration name)

end PathInfo

end NixStore
