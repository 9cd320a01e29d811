import NixStore.Engine.Basic
import NixStore.StorePath.Order
import NixStore.Stream.Script

/-!
# Stores in memory

A store given by a list of records, the outputs of derivations, and scripts for the archives. Its
engine notes each call before answering it, and a call can be made to fail.
-/

namespace NixStore

/-- A call of an engine. -/
inductive Call where
  | pathInfo (path : StorePath)
  | referrers (path : StorePath)
  | outputs (path : StorePath)
  | derivers (path : StorePath)
  | ofHashPart (hash : HashPart)
  | archive (path : StorePath)
deriving DecidableEq

/-- A valid path, with the script of its archive if it has one. -/
structure MemoryNode where
  info : PathInfo
  script : Option Script

/-- A store in memory. -/
structure MemoryStore where
  storeDir : StoreDir
  /-- The valid paths; a later record of a path replaces an earlier one. -/
  nodes : List MemoryNode
  /-- Outputs of derivations; the entries of one derivation add up. -/
  outputs : List (StorePath × List StorePath)
  /-- How a call fails, if it does. -/
  fault : Call → Option Fault

namespace MemoryStore

def find? (s : MemoryStore) (p : StorePath) : Option MemoryNode :=
  s.nodes.reverse.find? fun n ↦ n.info.path = p

/-- Whether the record of a path refers to another one. -/
def refers (s : MemoryStore) (p q : StorePath) : Bool :=
  (s.find? p).any fun n ↦ n.info.references.contains q

/-- The valid paths that refer to a path, in order. -/
def referrersOf (s : MemoryStore) (p : StorePath) : List StorePath :=
  let named := (s.nodes.filter fun n ↦ n.info.references.contains p).map (·.info.path)
  (Increasing.ofList (named.filter fun q ↦ s.refers q p)).toList

def outputsOf (s : MemoryStore) (drv : StorePath) : List StorePath :=
  s.outputs.flatMap fun (d, ps) ↦ if d = drv then ps else []

/-- The valid paths that have a path as an output, in order. -/
def deriversOf (s : MemoryStore) (p : StorePath) : List StorePath :=
  let named := (s.outputs.filter fun (_, ps) ↦ ps.contains p).map (·.1)
  (Increasing.ofList (named.filter fun drv ↦ (s.find? drv).isSome)).toList

/-- The last record whose path has a hash part. -/
def ofHashPart? (s : MemoryStore) (h : HashPart) : Option StorePath :=
  (s.nodes.reverse.find? fun n ↦ n.info.path.hashPart = h).map (·.info.path)

/-- Notes a call, and fails if it is one that fails. -/
def call (s : MemoryStore) (c : Call) : ExceptT Fault (StateM (Array Call)) Unit := do
  modify (·.push c)
  match s.fault c with
  | some f => throw f
  | none => pure ()

def archiveOf (s : MemoryStore) (p : StorePath) :
    ExceptT Fault (StateM (Array Call)) Script := do
  s.call (.archive p)
  match (s.find? p).bind (·.script) with
  | some script => return script
  | none => throw (.error (.invalidPath (s.storeDir.print p)))

def engine (s : MemoryStore) : Engine (StateM (Array Call)) where
  storeDir := s.storeDir
  pathInfo p := do
    s.call (.pathInfo p)
    return (s.find? p).map (·.info)
  isValid p := do
    s.call (.pathInfo p)
    return (s.find? p).isSome
  referrers p := do
    s.call (.referrers p)
    return s.referrersOf p
  outputs p := do
    s.call (.outputs p)
    return s.outputsOf p
  derivers p := do
    s.call (.derivers p)
    return s.deriversOf p
  ofHashPart h := do
    s.call (.ofHashPart h)
    return s.ofHashPart? h
  archive p := do
    match ← (s.archiveOf p).run with
    | .ok script => return script.producer
    | .error f => return .done (.error f)

end MemoryStore

end NixStore
