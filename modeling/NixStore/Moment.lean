/-!
# Moments

A moment is a whole number of seconds before or after the beginning of 1970, and a fraction of a
second later. The database keeps a signed number of seconds. The conversions go through the distance
from that beginning, which is never negative; the fraction is dropped from it. Of all distances only
one cannot be negated again: that of the earliest moment.
-/

namespace NixStore

/-- How many nanoseconds make a second. -/
abbrev nanosecondsPerSecond : Nat := 1000000000

/-- A moment, as seconds since 1970 and nanoseconds after these. -/
structure Moment where
  seconds : Int64
  nanoseconds : Fin nanosecondsPerSecond
deriving DecidableEq, Repr

/-- How far apart two moments are. -/
structure TimeSpan where
  seconds : UInt64
  nanoseconds : Fin nanosecondsPerSecond
deriving DecidableEq, Repr

namespace Moment

/-- The beginning of 1970. -/
def epoch : Moment := ⟨0, 0⟩

/-- The first moment of all. -/
def earliest : Moment := ⟨Int64.minValue, 0⟩

/-- The distance of a signed number from zero. -/
def magnitude (t : Int64) : UInt64 := if t < 0 then (0 - t).toUInt64 else t.toUInt64

/-- The moment some seconds later, unless it is out of range. -/
def later? (m : Moment) (d : UInt64) : Option Moment :=
  let s := m.seconds.toInt + d.toNat
  if s ≤ Int64.maxValue.toInt then some ⟨Int64.ofInt s, m.nanoseconds⟩ else none

/-- The moment some seconds earlier, unless it is out of range. -/
def earlier? (m : Moment) (d : UInt64) : Option Moment :=
  let s := m.seconds.toInt - d.toNat
  if Int64.minValue.toInt ≤ s then some ⟨Int64.ofInt s, m.nanoseconds⟩ else none

/-- The moment that a signed number of seconds stands for, unless it is out of range. -/
def ofUnix? (t : Int64) : Option Moment :=
  if 0 ≤ t then epoch.later? (magnitude t) else epoch.earlier? (magnitude t)

def ofUnix (t : Int64) : Moment := (ofUnix? t).getD ⟨t, 0⟩

/-- The time between the beginning of 1970 and a moment: `ok` after it, `error` before it. -/
def sinceEpoch (m : Moment) : Except TimeSpan TimeSpan :=
  if 0 ≤ m.seconds then .ok ⟨magnitude m.seconds, m.nanoseconds⟩
  -- the nanoseconds count forward, and the distance backward
  else if m.nanoseconds = 0 then .error ⟨magnitude m.seconds, 0⟩
  else .error ⟨magnitude m.seconds - 1, -m.nanoseconds⟩

/-- The negative of a number, unless it is out of range. -/
def negate? (t : Int64) : Option Int64 := if t = Int64.minValue then none else some (-t)

/-- The signed number of whole seconds of a moment, unless its distance cannot be negated. -/
def toUnix? (m : Moment) : Option Int64 :=
  match m.sinceEpoch with
  | .ok d => some d.seconds.toInt64
  | .error d => negate? d.seconds.toInt64

end Moment

end NixStore
