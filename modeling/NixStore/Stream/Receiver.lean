import NixStore.Stream.Producer

/-!
# Receivers with limits

A sink in memory that takes its bytes in pieces, stops taking them at some point, and may refuse
to be flushed.
-/

namespace NixStore

/-- How a receiver behaves. -/
structure ReceiverLimits where
  /-- The most that is taken at once. -/
  maxWrite : Option Nat
  /-- Once so many bytes are there, writing fails. -/
  failAfter : Option Nat
  /-- Once so many bytes are there, nothing is taken. -/
  zeroAfter : Option Nat
  failFlush : Bool

/-- What a receiver holds. -/
structure Receiver where
  /-- The pieces taken, the last one first. -/
  pieces : List Bytes
  size : Nat
  /-- How often it was asked to flush. -/
  flushes : Nat

namespace Receiver

def empty : Receiver := ⟨[], 0, 0⟩

def bytes (r : Receiver) : Bytes := r.pieces.reverse.flatten

/-- Whether so many bytes are there. -/
def reached (r : Receiver) : Option Nat → Bool
  | none => false
  | some n => n ≤ r.size

def take (r : Receiver) (piece : Bytes) : Receiver :=
  { r with pieces := piece :: r.pieces, size := r.size + piece.length }

def sink {m : Type → Type} [Monad m] (limits : ReceiverLimits) : Sink (StateT Receiver m) where
  write data := do
    let r ← get
    if r.reached limits.failAfter then return .error (.other (text "peer went away"))
    else if r.reached limits.zeroAfter then return .ok 0
    else
      let piece := match limits.maxWrite with
        | none => data
        | some n => data.take n
      set (r.take piece)
      return .ok piece.length
  flush := do
    modify fun r ↦ { r with flushes := r.flushes + 1 }
    if limits.failFlush then return .error (.other (text "flush refused")) else return .ok ()

end Receiver

end NixStore
