import NixStore.Database.Cell
import NixStore.Increasing
import NixStore.Moment
import NixStore.Text.Blank

/-!
# The tables of a store

Three tables: the valid paths, which path refers to which, and the outputs of derivations. Paths
are full paths. A row of the first table has a number under which the others name it; numbers are
given out in increasing order and never again, so that a number outlives its row.
-/

namespace NixStore

/-- A row of the table of valid paths. -/
structure PathRow where
  id : Nat
  path : Text
  hash : Cell
  registrationTime : Cell
  deriver : Cell
  archiveSize : Cell
  ultimate : Cell
  signatures : Cell
  contentAddress : Cell
deriving DecidableEq, Repr

/-- The path numbered `referrer` refers to the path numbered `reference`. -/
structure Reference where
  referrer : Nat
  reference : Nat
deriving DecidableEq, Repr

/-- An output of the derivation numbered `drv`. -/
structure Output where
  drv : Nat
  /-- The name of the output. -/
  id : Text
  path : Text
deriving DecidableEq, Repr

/-- The rows of the tables. -/
structure Tables where
  paths : List PathRow
  references : List Reference
  outputs : List Output
  /-- The greatest number that was ever given to a path. -/
  lastId : Nat
deriving DecidableEq, Repr

/-- What is registered of a path. -/
structure Registration where
  path : Text
  hash : Text
  registrationTime : Moment
  deriver : Option Text
  archiveSize : Option UInt64
  ultimate : Bool
  /-- Signatures with blanks between them. -/
  signatures : Option Text
  contentAddress : Option Text
  /-- The paths that this one refers to, itself perhaps among them. -/
  references : Increasing Text

/-- A row of the table of valid paths as it is read. -/
structure PathRecord where
  id : Nat
  path : Text
  hash : Text
  registrationTime : Moment
  deriver : Option Text
  archiveSize : Option UInt64
  ultimate : Bool
  signatures : Option Text
  contentAddress : Option Text
deriving DecidableEq

def PathRecord.signatureList (r : PathRecord) : List Text := (r.signatures.map Text.words).getD []

/-- A text that is there and not empty. -/
def nonEmpty? (t : Option Text) : Option Text := t.filter fun t ↦ !t.isEmpty

namespace PathRow

/-- Reads a row; of several columns with values of a wrong kind, the first is reported. -/
def read (row : PathRow) : Except DatabaseError PathRecord := do
  let hash ← row.hash.readText 2 "hash"
  let time ← row.registrationTime.readInteger 3 "registrationTime"
  let deriver ← row.deriver.readOptional (Cell.readText 4 "deriver")
  let size ← row.archiveSize.readOptional (Cell.readInteger 5 "narSize")
  let ultimate ← row.ultimate.readOptional (Cell.readInteger 6 "ultimate")
  let signatures ← row.signatures.readOptional (Cell.readText 7 "sigs")
  let contentAddress ← row.contentAddress.readOptional (Cell.readText 8 "ca")
  return ⟨row.id, row.path, hash, Moment.ofUnix time, nonEmpty? deriver,
    size.map Int64.toUInt64, ultimate.getD 0 ≠ 0, signatures, nonEmpty? contentAddress⟩

end PathRow

namespace Cell

/-- A text, or null. -/
def ofText? : Option Text → Cell
  | none => null
  | some t => text t

end Cell

namespace Registration

/-- The seconds of a registration, in whole signed numbers as its row holds them. -/
def time? (r : Registration) : Option Int64 := r.registrationTime.toUnix?

/-- The row of a registration with these seconds. -/
def row (r : Registration) (time : Int64) (id : Nat) : PathRow where
  id := id
  path := r.path
  hash := .text r.hash
  registrationTime := .integer time
  deriver := .ofText? r.deriver
  archiveSize := match r.archiveSize with
    | none => .null
    | some n => .integer n.toInt64
  ultimate := .integer (if r.ultimate then 1 else 0)
  signatures := .ofText? r.signatures
  contentAddress := .ofText? r.contentAddress

end Registration

/-- Whether a text may stand in front of another one in increasing order. -/
def mayPrecede (a b : Text) : Bool := !decide (b < a)

def sortTexts (ts : List Text) : List Text := ts.mergeSort mayPrecede

namespace Tables

def empty : Tables := ⟨[], [], [], 0⟩

/-! ## Questions -/

/-- The row of a path. -/
def row? (t : Tables) (path : Text) : Option PathRow := t.paths.find? fun r ↦ r.path = path

def id? (t : Tables) (path : Text) : Option Nat := (t.row? path).map (·.id)

def path? (t : Tables) (id : Nat) : Option Text :=
  (t.paths.find? fun r ↦ r.id = id).map (·.path)

def isValid (t : Tables) (path : Text) : Bool := (t.row? path).isSome

/-- The references of the path with a number, in order. -/
def referencesOf (t : Tables) (id : Nat) : List Text :=
  sortTexts <| (t.references.filter fun r ↦ r.referrer = id).filterMap fun r ↦ t.path? r.reference

/-- The paths that refer to a path, in order. -/
def referrersOf (t : Tables) (path : Text) : List Text :=
  match t.id? path with
  | none => []
  | some id =>
    sortTexts <|
      (t.references.filter fun r ↦ r.reference = id).filterMap fun r ↦ t.path? r.referrer

/-- The derivations that have a path as an output, in order; one that has it twice is there
twice. -/
def deriversOf (t : Tables) (path : Text) : List Text :=
  sortTexts <| (t.outputs.filter fun o ↦ o.path = path).filterMap fun o ↦ t.path? o.drv

/-- The outputs of a derivation, in the order of their names. -/
def outputsOf (t : Tables) (drv : Text) : List Text :=
  match t.id? drv with
  | none => []
  | some id =>
    ((t.outputs.filter fun o ↦ o.drv = id).mergeSort fun a b ↦ mayPrecede a.id b.id).map (·.path)

/-- The lesser of a text and another one, if there is one. -/
def least? (t : Text) : Option Text → Text
  | none => t
  | some u => if t < u then t else u

/-- The least path that is not below a text. -/
def leastFrom? (t : Tables) (start : Text) : Option Text :=
  (t.paths.filter fun r ↦ mayPrecede start r.path).foldr (fun r u ↦ some (least? r.path u)) none

/-- A path that begins with a text, found as the least one that is not below it. -/
def startingWith? (t : Tables) (start : Text) : Option Text :=
  (t.leastFrom? start).filter fun p ↦ start.isPrefixOf p

/-! ## Changes -/

/-- Adds a row with the next number, unless its path has a row. -/
def insertRow (t : Tables) (row : Nat → PathRow) : Except DatabaseError Tables :=
  let id := t.lastId + 1
  if t.isValid (row id).path then .error (.unique "ValidPaths" "path")
  else .ok { t with paths := t.paths ++ [row id], lastId := id }

/-- The references that a registration adds: those to paths that are valid. -/
def newReferences (t : Tables) (referrer : Nat) (references : List Text) : List Reference :=
  references.filterMap fun p ↦ (t.id? p).map (⟨referrer, ·⟩)

/-- Adds a path with its references; those that are not valid are left out. Gives its number. -/
def register (t : Tables) (r : Registration) (time : Int64) :
    Except DatabaseError (Nat × Tables) := do
  let t ← t.insertRow (r.row time)
  let new := t.newReferences t.lastId r.references.toList
  return (t.lastId, { t with references := t.references ++ new })

/-- Records an output of a derivation in place of one with the same name; nothing happens if the
derivation is not valid. -/
def registerOutput (t : Tables) (drv id path : Text) : Tables :=
  match t.id? drv with
  | none => t
  | some n =>
    { t with outputs := (t.outputs.filter fun o ↦ ¬(o.drv = n ∧ o.id = id)) ++ [⟨n, id, path⟩] }

/-- Takes a path away with its references and outputs, unless another one refers to it. Gives the
number of paths taken away. -/
def delete (t : Tables) (path : Text) : Except DatabaseError (Nat × Tables) :=
  match t.id? path with
  | none => .ok (0, t)
  | some id =>
    -- a path may refer to itself and still be taken away
    if t.references.any fun r ↦ r.reference = id ∧ r.referrer ≠ id then .error .foreignKey
    else
      .ok (1, { t with
        paths := t.paths.filter fun r ↦ r.id ≠ id
        references := t.references.filter fun r ↦ r.referrer ≠ id
        outputs := t.outputs.filter fun o ↦ o.drv ≠ id })

end Tables

end NixStore
