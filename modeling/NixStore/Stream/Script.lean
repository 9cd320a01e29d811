import NixStore.Stream.Producer

/-!
# Scripted producers

A script is a list of calls that a producer makes one after the other. The first call that fails
ends it, and so does a step that asks for a failure.
-/

namespace NixStore

/-- One step of a script. -/
inductive ScriptStep where
  /-- Writes all of some bytes, a number of times. -/
  | write (data : Bytes) (times : Nat)
  /-- Offers some bytes once. -/
  | offer (data : Bytes)
  | flush
  | fail (fault : Fault)

abbrev Script := List ScriptStep

namespace Script

def callFailed (e : IoError) : Fault := .error (.io .writingArchive e)

/-- Writes all of some bytes, a number of times. -/
def repeatWrite (data : Bytes) : Nat → Producer (Except IoError Unit)
  | 0 => .done (.ok ())
  | n + 1 => do
    match ← Producer.writeAll data with
    | .ok () => repeatWrite data n
    | .error e => return .error e

/-- The producer of a script. It ends with its outcome and with the number of bytes that each
single offer had taken, in order. -/
def observed : Script → Producer (Except Fault Unit × List Nat)
  | [] => .done (.ok (), [])
  | .write data times :: rest => do
    match ← repeatWrite data times with
    | .ok () => observed rest
    | .error e => return (.error (callFailed e), [])
  | .offer data :: rest =>
    .write data fun
      | .ok n => do
        let (outcome, taken) ← observed rest
        return (outcome, n :: taken)
      | .error e => .done (.error (callFailed e), [])
  | .flush :: rest =>
    .flush fun
      | .ok () => observed rest
      | .error e => .done (.error (callFailed e), [])
  | .fail fault :: _ => .done (.error fault, [])

/-- The producer of a script, with its outcome only. -/
def producer (s : Script) : Producer (Except Fault Unit) := Prod.fst <$> s.observed

end Script

end NixStore
