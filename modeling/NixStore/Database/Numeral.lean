import NixStore.Text.Basic

/-!
# Numbers written in texts

A text may write a number: a sign, digits with a point among them, and an exponent, with blanks
around all of it. Its value is found with as much care as two floating point numbers allow. The
digits that fit into 64 bits are kept, and what is missing of a power of ten is multiplied in step
by step, each time with the part that rounding takes away. The result is nearly always, but not
always, the floating point number nearest to what is written.
-/

namespace NixStore

/-! ## Sums of two floating point numbers -/

/-- The sum of two floating point numbers, the second of which corrects the first. -/
structure Twofold where
  high : Float
  low : Float

namespace Twofold

/-- A floating point number without its last 26 binary digits. The product of two such numbers is
exact. -/
def leading (x : Float) : Float := Float.ofBits (x.toBits &&& 0xFFFFFFFFFC000000)

/-- The product of two sums. -/
def mul (x y : Twofold) : Twofold :=
  let xLead := leading x.high
  let xRest := x.high - xLead
  let yLead := leading y.high
  let yRest := y.high - yLead
  let product := xLead * yLead
  let cross := xLead * yRest + xRest * yLead
  let sum := product + cross
  -- what rounding took away, and the products with the corrections
  let rest := product - sum + cross + xRest * yRest
  let rest := x.high * y.low + x.low * y.high + rest
  let high := sum + rest
  ⟨high, sum - high + rest⟩

/-- A natural number of 64 bits. -/
def ofNat (n : Nat) : Twofold :=
  let high := n.toUInt64.toFloat
  -- above this number the first part may be too great to be subtracted in 64 bits
  if high ≤ 18446744073709549568.0 then ⟨high, Float.ofInt (n - high.toUInt64.toNat)⟩
  else ⟨high, 0.0⟩

/-- The product with a power of ten, hundred tens first, then ten, then one. -/
def scale (x hundred ten one : Twofold) (e : Nat) : Twofold :=
  let x := Nat.repeat (mul · hundred) (e / 100) x
  let x := Nat.repeat (mul · ten) (e % 100 / 10) x
  Nat.repeat (mul · one) (e % 10) x

/-- The product with `10 ^ e`. -/
def timesPower (x : Twofold) : Int → Twofold
  | .ofNat e => x.scale ⟨1e100, -1.5902891109759918046e83⟩ ⟨1e10, 0.0⟩ ⟨1e1, 0.0⟩ e
  | .negSucc e =>
    x.scale ⟨1e-100, -1.99918998026028836196e-117⟩ ⟨1e-10, -3.6432197315497741579e-27⟩
      ⟨1e-1, -5.5511151231257827021e-18⟩ (e + 1)

/-- The floating point number of a sum; of infinite parts that cancel, infinity. -/
def toFloat (x : Twofold) : Float :=
  let sum := x.high + x.low
  if sum.isNaN then 1.0 / 0.0 else sum

end Twofold

/-! ## Numerals -/

/-- A number as a text writes it. -/
structure Numeral where
  negative : Bool
  /-- The digits before the point. -/
  whole : List Char
  /-- The digits behind the point. -/
  fraction : List Char
  exponent : Int
  /-- Written without a point and without an exponent. -/
  plain : Bool

namespace Numeral

/-- The blanks that may surround a number. -/
def isBlank (c : Char) : Bool := c = ' ' || (9 ≤ c.toNat && c.toNat ≤ 13)

/-- Drops the blanks at both ends of a text. -/
def trim (t : Text) : Text :=
  ((t.dropWhile isBlank).reverse.dropWhile isBlank).reverse

/-- A sign, and what follows it. -/
def sign : Text → Bool × Text
  | '-' :: rest => (true, rest)
  | '+' :: rest => (false, rest)
  | t => (false, t)

def digitValue (c : Char) : Nat := c.toNat - '0'.toNat

/-- The size of an exponent. One with more than five digits, leading zeros apart, counts as ten
thousand, which is as good: a number of that order is infinite or zero. -/
def exponentSize (digits : List Char) : Nat :=
  digits.foldl (fun n c ↦ if n < 10000 then 10 * n + digitValue c else 10000) 0

/-- The exponent that a text ends with, if it is one; the empty text counts as zero. -/
def exponent? : Text → Option Int
  | [] => some 0
  | c :: rest =>
    if c = 'e' ∨ c = 'E' then
      let (negative, digits) := sign rest
      if digits ≠ [] ∧ digits.all Char.isDigit then
        some (if negative then -(exponentSize digits : Int) else exponentSize digits)
      else none
    else none

/-- The number that a text writes. -/
def ofText? (t : Text) : Option Numeral := do
  let (negative, t) := sign (trim t)
  let whole := t.takeWhile Char.isDigit
  let t := t.dropWhile Char.isDigit
  let (point, t) := match t with
    | '.' :: rest => (true, rest)
    | _ => (false, t)
  let fraction := if point then t.takeWhile Char.isDigit else []
  let t := if point then t.dropWhile Char.isDigit else t
  let exponent ← exponent? t
  if whole ++ fraction = [] then none
  else return ⟨negative, whole, fraction, exponent, !point && t.isEmpty⟩

/-- The number that the digits before the point write, with its sign. -/
def toInt (x : Numeral) : Int :=
  let n := x.whole.foldl (fun n c ↦ 10 * n + digitValue c) 0
  if x.negative then -n else n

/-! ## The value of a numeral -/

/-- Below this number there is room for one more digit in 64 bits. -/
def digitLimit : Nat := 1844674407370955160

/-- The digits that fit into 64 bits, and the exponent of their last one. Digits for which there
is no room count as zeros. -/
def significand (x : Numeral) : Nat × Int :=
  let (n, e) := x.whole.foldl (fun (n, e) c ↦
    if n < digitLimit then (10 * n + digitValue c, e) else (n, e + 1)) (0, x.exponent)
  x.fraction.foldl (fun (n, e) c ↦
    if n < digitLimit then (10 * n + digitValue c, e - 1) else (n, e)) (n, e)

/-- Moves factors of ten from the power `10 ^ e` to `n` while 64 bits hold the product. -/
def enlarge (n : Nat) : (e : Nat) → Nat × Nat
  | 0 => (n, 0)
  | e + 1 => if n < 1844674407370954956 then enlarge (10 * n) e else (n, e + 1)

/-- Cancels factors of ten between `n` and the power `10 ^ e` below it. -/
def cancel (n : Nat) : (e : Nat) → Nat × Nat
  | 0 => (n, 0)
  | e + 1 => if n % 10 = 0 then cancel (n / 10) e else (n, e + 1)

/-- The number `n * 10 ^ e` with the exponent as near to zero as it can be brought. -/
def balance (n : Nat) : Int → Nat × Int
  | .ofNat e =>
    let (n, e) := enlarge n e
    (n, e)
  | .negSucc e =>
    let (n, e) := cancel n (e + 1)
    (n, -e)

/-- The floating point number that a numeral is taken for. -/
def toFloat (x : Numeral) : Float :=
  let (n, e) := x.significand
  let magnitude :=
    if n = 0 then 0.0
    else
      let (n, e) := balance n e
      ((Twofold.ofNat n).timesPower e).toFloat
  if x.negative then -magnitude else magnitude

end Numeral

end NixStore
