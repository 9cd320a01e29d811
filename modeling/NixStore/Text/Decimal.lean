import NixStore.Text.Basic

/-!
# Shortest decimals of floating point numbers

A floating point number stands for the interval of reals that round to it. Its decimal is the one
with the fewest digits in that interval, and among those the one nearest to the number. All
arithmetic is on natural numbers: the number and the ends of its interval are multiples of a
quarter of the unit in its last place.

Numbers from `10 ^ -5` up to, and not including, `10 ^ 16` are written in positional notation,
with a digit on each side of the point, and all others with an exponent.
-/

namespace NixStore.Text

/-- A positive number `mantissa * 2 ^ exponent`; `boundary` says that the numbers below it lie
twice as close as those above it. -/
structure Binary where
  mantissa : Nat
  exponent : Int
  boundary : Bool

/-- Takes apart the bits of a finite number, without its sign. -/
def Binary.ofBits (bits : UInt64) : Binary :=
  let fraction := (bits &&& 0xFFFFFFFFFFFFF).toNat
  let field := ((bits >>> 52) &&& 0x7FF).toNat
  if field = 0 then ⟨fraction, -1074, false⟩
  else ⟨fraction + 0x10000000000000, (field : Int) - 1075, fraction = 0 && field ≠ 1⟩

/-- `10 ^ e` as a fraction. -/
def tenth (e : Int) : Nat × Nat := (Nat.pow 10 e.toNat, Nat.pow 10 (-e).toNat)

/-- The position of the first decimal digit: `10 ^ k` is at most the number, and `10 ^ (k + 1)`
is above it. Every positive number is above `10 ^ -340`. -/
def Binary.magnitude (x : Binary) : Int :=
  let scaled := (x.mantissa * Nat.pow 10 340) <<< x.exponent.toNat >>> (-x.exponent).toNat
  (Nat.toDigits 10 scaled).length - 341

/-- The decimal `d * 10 ^ e` with the exponent `e` that is nearest to the number among those in
its interval, if there is one. -/
def Binary.onGrid (x : Binary) (e : Int) : Option Nat :=
  let (p, q) := tenth e
  let unit := q <<< (x.exponent - 2).toNat
  let step := p <<< (2 - x.exponent).toNat
  -- the number and the ends of its interval, in quarters of its last place
  let value := 4 * x.mantissa * unit
  let low := (4 * x.mantissa - if x.boundary then 1 else 2) * unit
  let high := (4 * x.mantissa + 2) * unit
  -- the ends round to the number if its mantissa is even
  let inside (d : Nat) : Bool :=
    if x.mantissa % 2 = 0 then low ≤ d * step && d * step ≤ high
    else low < d * step && d * step < high
  let below := value / step
  match inside below, inside (below + 1) with
  -- of two, the nearer one, and the greater one if both are as near
  | true, true =>
    if value - below * step < (below + 1) * step - value then some below else some (below + 1)
  | true, false => some below
  | false, true => some (below + 1)
  | false, false => none

/-- The shortest decimal: tries grids of one digit, two digits, and so on; seventeen digits always
suffice. Only a power of ten can be found with a zero at its end, and loses it. -/
def Binary.shortestFrom (x : Binary) : (tries digits : Nat) → Nat × Int
  | 0, _ => (0, 0)
  | tries + 1, digits =>
    let e := x.magnitude + 1 - digits
    match x.onGrid e with
    | some d => if d % 10 = 0 then (d / 10, e + 1) else (d, e)
    | none => x.shortestFrom tries (digits + 1)

/-- The decimal `d * 10 ^ e` in positional notation, with a digit on each side of the point. -/
def positional (d : Nat) (e : Int) : Text :=
  let digits := Nat.toDigits 10 d
  if 0 ≤ e then digits ++ List.replicate e.toNat '0' ++ text ".0"
  else
    let places := (-e).toNat
    let padded := List.replicate (places + 1 - digits.length) '0' ++ digits
    let whole := padded.length - places
    padded.take whole ++ '.' :: padded.drop whole

/-- Digits in scientific notation, where the first one has the place `place`. -/
def scientific (digits : List Char) (place : Int) : Text :=
  let fraction := if digits.length = 1 then [] else '.' :: digits.tail
  let sign := if place < 0 then '-' else '+'
  digits.take 1 ++ fraction ++ 'e' :: sign :: Nat.toDigits 10 place.natAbs

/-- The text of a positive number `d * 10 ^ e`. -/
def written (d : Nat) (e : Int) : Text :=
  let digits := Nat.toDigits 10 d
  let place := e + digits.length - 1
  if -5 ≤ place ∧ place < 16 then positional d e else scientific digits place

def decimal (x : Float) : Text :=
  let bits := x.toBits
  let sign := if bits >>> 63 = 1 then ['-'] else []
  let magnitude := Binary.ofBits bits
  if magnitude.mantissa = 0 then sign ++ text "0.0"
  else
    let (d, e) := magnitude.shortestFrom 17 1
    sign ++ written d e

end NixStore.Text
