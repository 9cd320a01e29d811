import NixStore.Engine.Basic
import NixStore.Stream.Sender

/-!
# The calls of an engine

What an engine is asked, as data, so that it can be told which calls an operation makes and what
came of each. An engine can be observed: it answers as before, and the calls are written down
behind its state. The call that starts an archive only hands out a producer; how that call ends is
how the producer ends when its chunks are taken.
-/

namespace NixStore

/-- A question to an engine. -/
inductive Query where
  | pathInfo (path : StorePath)
  | isValid (path : StorePath)
  | referrers (path : StorePath)
  | outputs (drv : StorePath)
  | derivers (path : StorePath)
  | ofHashPart (hash : HashPart)
deriving DecidableEq

def Fault.of? {α : Type} : Except Fault α → Option Fault
  | .error f => some f
  | .ok _ => none

@[simp] theorem Fault.of?_eq_some {α : Type} {answer : Except Fault α} {f : Fault} :
    Fault.of? answer = some f ↔ answer = .error f := by
  cases answer <;> simp [Fault.of?]

/-- A call of an engine, with what came of it. -/
inductive EngineCall where
  | asked (query : Query) (fault : Option Fault)
  | archived (path : StorePath) (producer : Producer (Except Fault Unit))

/-- How a call fails, if it does; archives are cut into chunks of some size. -/
def EngineCall.fault? (chunkSize : Nat) : EngineCall → Option Fault
  | asked _ fault => fault
  | archived _ producer => Fault.of? ((producer.chunked chunkSize #[]).run none).1.1

namespace Engine

variable {τ : Type}

/-- Asks a question, and writes down what came of it. -/
def observe {α : Type} (query : Query) (question : ExceptT Fault (StateM τ) α) :
    ExceptT Fault (StateM (τ × List EngineCall)) α :=
  ExceptT.mk fun (st : τ × List EngineCall) ↦
    let answer := question.run.run st.1
    (answer.1, answer.2, st.2 ++ [.asked query (Fault.of? answer.1)])

/-- The engine whose calls are written down. -/
def observed (e : Engine (StateM τ)) : Engine (StateM (τ × List EngineCall)) where
  storeDir := e.storeDir
  pathInfo p := observe (.pathInfo p) (e.pathInfo p)
  isValid p := observe (.isValid p) (e.isValid p)
  referrers p := observe (.referrers p) (e.referrers p)
  outputs drv := observe (.outputs drv) (e.outputs drv)
  derivers p := observe (.derivers p) (e.derivers p)
  ofHashPart hash := observe (.ofHashPart hash) (e.ofHashPart hash)
  archive p := fun (st : τ × List EngineCall) ↦
    let started := (e.archive p).run st.1
    (started.1, started.2, st.2 ++ [.archived p started.1])

end Engine

end NixStore
