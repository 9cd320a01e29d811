/-!
# Set-up that runs once

Every kind of store has a set-up for the whole process. A guard remembers the kinds whose set-up
has succeeded; one that failed, in whichever way, is tried again by the next opener.
-/

namespace NixStore

/-- The keys whose set-up has succeeded. -/
structure SetupGuard (κ : Type) where
  succeeded : List κ

namespace SetupGuard

variable {κ ε : Type}

def fresh : SetupGuard κ := ⟨[]⟩

variable [DecidableEq κ]

/-- Whether the set-up under a key has to run. -/
def needs (g : SetupGuard κ) (key : κ) : Bool := !g.succeeded.contains key

/-- Makes sure that the set-up under a key has succeeded once; `setup` is what it comes to if it
runs now. -/
def runOnce (g : SetupGuard κ) (key : κ) (setup : Except ε Unit) :
    Except ε Unit × SetupGuard κ :=
  if g.needs key then
    match setup with
    | .ok () => (.ok (), ⟨key :: g.succeeded⟩)
    | .error e => (.error e, g)
  else (.ok (), g)

end SetupGuard

end NixStore
