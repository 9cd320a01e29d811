import NixStore.Error.Engine

/-!
# Producers

A producer is a program that writes bytes and asks for flushes, and looks at how each of these
calls went before it goes on. It is a tree: each call, and below it what the producer does for
each outcome. So every producer can be run against any sink, a run is a fold, and whatever is
proved for all producers holds for everything that writes archives.
-/

namespace NixStore

/-- A program that writes and ends with a value of type `α`. -/
inductive Producer (α : Type) where
  | done (result : α)
  /-- Offers bytes, and goes on with the number of those that were taken. -/
  | write (data : Bytes) (next : Except IoError Nat → Producer α)
  | flush (next : Except IoError Unit → Producer α)

namespace Producer

def bind {α β : Type} (p : Producer α) (f : α → Producer β) : Producer β :=
  match p with
  | done a => f a
  | write data next => write data fun r ↦ (next r).bind f
  | flush next => flush fun r ↦ (next r).bind f

instance : Monad Producer where
  pure := done
  bind := bind

@[simp] theorem pure_eq_done {α : Type} (a : α) : (pure a : Producer α) = done a := rfl

@[simp] theorem bind_eq_bind {α β : Type} (p : Producer α) (f : α → Producer β) :
    p >>= f = p.bind f := rfl

theorem bind_done {α : Type} (p : Producer α) : p.bind done = p := by
  induction p with
  | done a => rfl
  | write data next ih => exact congrArg (write data) (funext ih)
  | flush next ih => exact congrArg flush (funext ih)

theorem bind_bind {α β γ : Type} (p : Producer α) (f : α → Producer β) (g : β → Producer γ) :
    (p.bind f).bind g = p.bind fun a ↦ (f a).bind g := by
  induction p with
  | done a => rfl
  | write data next ih => exact congrArg (write data) (funext ih)
  | flush next ih => exact congrArg flush (funext ih)

instance : LawfulMonad Producer :=
  LawfulMonad.mk' Producer (fun p ↦ bind_done p) (fun _ _ ↦ rfl) bind_bind

/-- Offers bytes until all are taken. A sink that takes none of them fails the whole. -/
def writeAll : Bytes → Producer (Except IoError Unit)
  | [] => done (.ok ())
  | b :: rest =>
    write (b :: rest) fun
      | .error e => done (.error e)
      | .ok 0 => done (.error .incomplete)
      | .ok (n + 1) => writeAll (rest.drop n)
termination_by data => data.length
decreasing_by
  simp only [List.length_drop, List.length_cons]
  omega

end Producer

/-- The other side of a producer. -/
structure Sink (m : Type → Type) where
  write : Bytes → m (Except IoError Nat)
  flush : m (Except IoError Unit)

/-- Writes all of some bytes to a sink; `zero` is the error of one that takes none of them. -/
def Sink.deliver {m : Type → Type} [Monad m] (sink : Sink m) (zero : IoError) :
    Bytes → m (Except IoError Unit)
  | [] => pure (.ok ())
  | b :: rest => do
    match ← sink.write (b :: rest) with
    | .error e => return .error e
    | .ok 0 => return .error zero
    | .ok (n + 1) => sink.deliver zero (rest.drop n)
termination_by data => data.length
decreasing_by
  simp only [List.length_drop, List.length_cons]
  omega

def Producer.run {m : Type → Type} [Monad m] {α : Type} (sink : Sink m) : Producer α → m α
  | done a => pure a
  | write data next => do (next (← sink.write data)).run sink
  | flush next => do (next (← sink.flush)).run sink

theorem Producer.run_bind {m : Type → Type} [Monad m] [LawfulMonad m] {α β : Type} (sink : Sink m)
    (p : Producer α) (f : α → Producer β) :
    (p.bind f).run sink = p.run sink >>= fun a ↦ (f a).run sink := by
  induction p with
  | done a => rw [run, pure_bind]; rfl
  | write data next ih =>
    rw [run, bind_assoc]
    exact congrArg (sink.write data >>= ·) (funext ih)
  | flush next ih =>
    rw [run, bind_assoc]
    exact congrArg (sink.flush >>= ·) (funext ih)

end NixStore
