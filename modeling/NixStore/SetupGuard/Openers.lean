import NixStore.SetupGuard
import NixStore.Text.Basic

/-!
# Openers that share a guard

The guard of a process stands behind a lock. An opener that finds the lock free takes it, and keeps
it while its set-up runs; all others wait. A set-up that panics leaves the lock poisoned, and the
openers that come later take the guard as they find it. Whoever calls the guard twice counts as two
openers.

The openers take their turns in any order. A turn of one that has to wait, or that has returned,
leaves everything as it is, so a schedule is any sequence of turns, and each prefix of one is a run.
-/

namespace NixStore

/-- Why a set-up has not succeeded. -/
inductive SetupFault (ε : Type) where
  | failed (cause : ε)
  | panicked (message : Option Text)
deriving DecidableEq

/-- A value behind a lock. A lock that was held during a panic is poisoned. -/
structure Lock (α : Type) where
  value : α
  poisoned : Bool

namespace Lock

variable {α : Type}

/-- Takes the lock. A poisoned one gives its value away only as an error. -/
def take (l : Lock α) : Except α α := if l.poisoned then .error l.value else .ok l.value

/-- The value as it is found, in a poisoned lock as well. -/
def found (l : Lock α) : α :=
  match l.take with
  | .ok a => a
  | .error a => a

theorem found_eq (l : Lock α) : l.found = l.value := by
  cases h : l.poisoned <;> simp [found, take, h]

end Lock

/-- What an opener asks of a guard: the key of its kind of store, and what the set-up comes to if
it runs. -/
structure SetupCall (κ ε : Type) where
  key : κ
  setup : Except (SetupFault ε) Unit

/-- The guard that calls leave which are made one after the other. -/
def SetupGuard.after {κ ε : Type} [DecidableEq κ] (calls : List (SetupCall κ ε)) : SetupGuard κ :=
  calls.foldl (fun g c ↦ (g.runOnce c.key c.setup).2) .fresh

/-- A call that has returned. -/
structure SetupReturn (ι κ ε : Type) where
  opener : ι
  call : SetupCall κ ε
  /-- Whether the set-up was run. -/
  ran : Bool
  result : Except (SetupFault ε) Unit

/-- Whether the set-up of a call was run and has succeeded. -/
def SetupReturn.succeeded {ι κ ε : Type} (a : SetupReturn ι κ ε) : Bool :=
  a.ran && a.call.setup.isOk

/-- Openers with one call each, and the guard that they share. -/
structure Openers (ι κ ε : Type) where
  calls : ι → SetupCall κ ε
  lock : Lock (SetupGuard κ)
  /-- Whose set-up is running, with the lock held. -/
  running : Option ι
  /-- The calls that have returned, the oldest first. -/
  returned : List (SetupReturn ι κ ε)

namespace Openers

variable {ι κ ε : Type}

/-- Before the first call. -/
def start (calls : ι → SetupCall κ ε) : Openers ι κ ε := ⟨calls, ⟨.fresh, false⟩, none, []⟩

/-- A set-up has come to its end: a success is recorded, a panic poisons the lock, and the lock is
free again. -/
def leave (s : Openers ι κ ε) (i : ι) : Openers ι κ ε :=
  let call := s.calls i
  { s with
    lock :=
      match call.setup with
      | .ok () => ⟨⟨call.key :: s.lock.value.succeeded⟩, s.lock.poisoned⟩
      | .error (.failed _) => s.lock
      | .error (.panicked _) => { s.lock with poisoned := true }
    running := none
    returned := s.returned ++ [⟨i, call, true, call.setup⟩] }

variable [DecidableEq κ]

/-- An opener has found the lock free: it begins its set-up, or returns at once if there is none to
be run. -/
def enter (s : Openers ι κ ε) (i : ι) : Openers ι κ ε :=
  if s.lock.found.needs (s.calls i).key then { s with running := some i }
  else { s with returned := s.returned ++ [⟨i, s.calls i, false, .ok ()⟩] }

variable [DecidableEq ι]

/-- Whether the call of an opener has returned. -/
def hasReturned (s : Openers ι κ ε) (i : ι) : Bool := s.returned.any fun a ↦ a.opener = i

def turn (s : Openers ι κ ε) (i : ι) : Openers ι κ ε :=
  match s.running with
  | some j => if i = j then s.leave i else s
  | none => if s.hasReturned i then s else s.enter i

/-- The openers after the first turns of a schedule. -/
def after (s : Openers ι κ ε) (schedule : Nat → ι) : Nat → Openers ι κ ε
  | 0 => s
  | n + 1 => (s.after schedule n).turn (schedule n)

/-- Every opener gets its turns again and again. -/
def Fair (schedule : Nat → ι) : Prop := ∀ i n, ∃ m, n ≤ m ∧ schedule m = i

end Openers

end NixStore
