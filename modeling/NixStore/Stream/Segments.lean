import NixStore.Stream.Transmission

/-!
# Segments

What the chunks of a producer should be, told by its calls and not by any buffer. A flush ends a
segment, and each segment is cut into chunks from its front, so only its last chunk may be shorter
than the others. A producer that fails loses the last chunk of the segment that it has not ended.
-/

namespace NixStore

/-- Some bytes in pieces of one size, the last of which may be shorter. -/
def pieces (size : Nat) : Bytes → List Bytes
  | [] => []
  | b :: rest => (b :: rest.take (size - 1)) :: pieces size (rest.drop (size - 1))
termination_by bytes => bytes.length
decreasing_by
  simp only [List.length_drop, List.length_cons]
  omega

namespace Answered

/-- The segments after a call: those that were ended, and the one that was not. -/
def segment (segments : List Bytes × Bytes) : Answered → List Bytes × Bytes
  | write data answer => (segments.1, segments.2 ++ (write data answer).accepted)
  | flush _ => (segments.1 ++ [segments.2], [])

/-- The accepted bytes of some calls, in segments. -/
def segments (calls : List Answered) : List Bytes × Bytes := calls.foldl segment ([], [])

/-- The chunks of a producer that has made some calls and returned. -/
def chunks (size : Nat) (calls : List Answered) (outcome : Except Fault Unit) : List Bytes :=
  let (ended, last) := segments calls
  match outcome with
  | .ok () => ended.flatMap (pieces size) ++ pieces size last
  | .error _ => ended.flatMap (pieces size) ++ (pieces size last).dropLast

/-- What the consumer is given of such a producer: its chunks, and an error behind them if it has
failed. -/
def items (path : StorePath) (size : Nat) (calls : List Answered) (outcome : Except Fault Unit) :
    List (Except StoreError Bytes) :=
  (chunks size calls outcome).map .ok ++
    match outcome with
    | .ok () => []
    | .error f => [.error (.ofArchive path f)]

/-- What some calls accept until one of them fails. -/
def acceptedUntilFailure (calls : List Answered) : Bytes :=
  (calls.takeWhile (·.error?.isNone)).flatMap accepted

end Answered

end NixStore
