import NixStore.Digest.Base16
import NixStore.Error.Database

/-!
# Addresses of databases

A database is named by the path of its file or by an address. An address is `file:`, then the path,
and after a question mark options with an ampersand between them, each with an equals sign and a
value. Two slashes in front of the path name the computer that has it, which can only be this one.
Any byte behind the computer's name may be written as a percent sign and two hexadecimal digits,
and all that follows a number sign is a comment. An empty path, or `:memory:`, stands for a
database that is in no file.
-/

namespace NixStore

/-- How a database is opened. -/
inductive OpenMode where
  | readOnly
  | readWrite
  /-- For writing, and its file is made if it is missing. -/
  | create
  /-- For writing, in memory and not in a file. -/
  | memory
deriving DecidableEq, Repr

namespace OpenMode

def ofName? (name : Bytes) : Option OpenMode :=
  match String.ofList (Text.ofLatin1 name) with
  | "ro" => some readOnly
  | "rw" => some readWrite
  | "rwc" => some create
  | "memory" => some memory
  | _ => none

/-- What a mode may do to a file, as a number that grows with it. -/
def rank : OpenMode → Nat
  | memory => 0
  | readOnly => 1
  | readWrite => 2
  | create => 3

/-- Whether one mode may be replaced by another, which asks for no more. In memory everything is
allowed. -/
def allows (mode other : OpenMode) : Bool := mode = memory || other.rank ≤ mode.rank

end OpenMode

/-- What a database is named by: a path, and how the file there is opened. -/
structure DatabaseAddress where
  path : Bytes
  mode : OpenMode
  /-- Nobody changes the file while it is open. -/
  immutable : Bool
  /-- The way to reach the file. -/
  fileSystem : Bytes
deriving DecidableEq, Repr

namespace DatabaseAddress

/-- The address of a path that is nothing but a path. -/
def ofPlainPath (path : Bytes) : DatabaseAddress :=
  ⟨path, .create, false, Text.latin1 (text "unix")⟩

/-! ## Components -/

/-- Reads a component with the bytes that are written by number. A zero byte ends it. -/
def decode : Bytes → Bytes
  | c :: a :: b :: rest =>
    match if c = 0x25 then Base16.byte? (Char.ofNat a.toNat) (Char.ofNat b.toNat) else none with
    | some 0 => []
    | some byte => byte :: decode rest
    | none => c :: decode (a :: b :: rest)
  -- what is written by number takes three bytes
  | short => short

/-- Splits at the first separator; what comes behind is empty if there is none. -/
def splitOnce (separator : UInt8) (bs : Bytes) : Bytes × Bytes :=
  (bs.takeWhile (· ≠ separator), (bs.dropWhile (· ≠ separator)).tail)

/-- The options of an address, without those that have no name. -/
def options (bs : Bytes) : List (String × Bytes) :=
  -- an ampersand between two options, an equals sign between a name and its value
  ((Text.split 0x26 bs).map fun option ↦
    let (name, value) := splitOnce 0x3D option
    (String.ofList (Text.ofLatin1 (decode name)), decode value)).filter (·.1 ≠ "")

/-! ## Options -/

/-- Whether the value of an option means yes: one of three words, or a number other than zero. -/
def isTrue (value : Bytes) : Bool :=
  let t := Text.ofLatin1 value
  let digits := t.takeWhile Char.isDigit
  if digits = [] then
    String.ofList (t.map Char.toLower) ∈ ["on", "yes", "true"]
  else digits.any (· ≠ '0')

def setOption (address : DatabaseAddress) : String × Bytes → Except DatabaseError DatabaseAddress
  | ("vfs", value) => .ok { address with fileSystem := value }
  | ("cache", value) =>
    if String.ofList (Text.ofLatin1 value) ∈ ["shared", "private"] then .ok address
    else .error (.noSuchMode .cache value)
  | ("mode", value) =>
    match OpenMode.ofName? value with
    | none => .error (.noSuchMode .access value)
    | some mode =>
      if address.mode.allows mode then .ok { address with mode := mode }
      else .error (.modeNotAllowed value)
  | _ => .ok address

/-- The ways to reach a file that are known; the last one keeps it in memory. -/
def fileSystems : List String := ["unix", "unix-none", "unix-dotfile", "unix-excl", "memdb"]

def isFile (address : DatabaseAddress) : Bool :=
  address.mode ≠ .memory && address.fileSystem ≠ Text.latin1 (text "memdb") &&
    address.path ≠ [] && address.path ≠ Text.latin1 (text ":memory:")

/-! ## Reading -/

/-- Takes away the name of the computer, and fails if it is another one. -/
def withoutAuthority (bs : Bytes) : Except DatabaseError Bytes :=
  match bs with
  | 0x2F :: 0x2F :: rest =>
    let authority := rest.takeWhile (· ≠ 0x2F)
    if authority = [] ∨ authority = Text.latin1 (text "localhost") then
      .ok (rest.dropWhile (· ≠ 0x2F))
    else .error (.badAuthority authority)
  | _ => .ok bs

/-- Reads what follows `file:`. Options count in their order, and the way to reach the file is
looked for last. -/
def ofLocation (bs : Bytes) : Except DatabaseError DatabaseAddress := do
  let bs ← withoutAuthority bs
  -- a number sign starts a comment, a question mark the options
  let (path, query) := splitOnce 0x3F (bs.takeWhile (· ≠ 0x23))
  let options := options query
  let address ← options.foldlM setOption (ofPlainPath (decode path))
  let name := String.ofList (Text.ofLatin1 address.fileSystem)
  if name ∉ fileSystems then throw (.noSuchFileSystem address.fileSystem)
  let immutable := options.find? (·.1 = "immutable")
  return { address with immutable := immutable.any fun option ↦ isTrue option.2 }

def ofName (name : Bytes) : Except DatabaseError DatabaseAddress :=
  match name.findIdx? (· = 0), Text.after? (Text.latin1 (text "file:")) name with
  | some position, _ => .error (.zeroByteInPath position)
  | none, some location => ofLocation location
  | none, none => .ok (ofPlainPath name)

end DatabaseAddress

end NixStore
