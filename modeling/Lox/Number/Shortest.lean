import Lox.Number.Double

/-!
# Shortest decimals

`shortest` finds the decimal with the fewest digits that reads back as a given double.  The reals
that round to a double form an interval, closed exactly if its `m` is even.  For 1, 2, … 17 digits
the two neighbours of the double on the grid of that many digits are tried, and the first grid with
a neighbour inside the interval gives the answer: the nearer one if both are, the greater one if
they are equally near.
-/

namespace Lox.Number

/-- The number `digits · 10 ^ exponent`. -/
structure Decimal where
  digits : Nat
  exponent : Int
deriving DecidableEq, Repr

namespace Decimal

/-- The same number with no zero at the end of its digits. -/
def trim (d : Decimal) : Decimal :=
  if h : d.digits ≠ 0 ∧ d.digits % 10 = 0 then trim ⟨d.digits / 10, d.exponent + 1⟩ else d
termination_by d.digits
decreasing_by omega

/-- The power of ten that the first digit counts. -/
def leading (d : Decimal) : Int :=
  d.exponent + (Nat.toDigits 10 d.digits).length - 1

end Decimal

/-- The whole `e` with `10 ^ e ≤ num / den < 10 ^ (e + 1)`, for positive `num` and `den`. -/
def leadingExponent (num den : Nat) : Int :=
  if den ≤ num then (Nat.toDigits 10 (num / den)).length - 1
  else -((Nat.toDigits 10 ((den - 1) / num)).length : Int)

/-! ## The interval of a double -/

/-- The reals that round to one double: numerators over one denominator. -/
structure Interval where
  low : Nat
  value : Nat
  high : Nat
  den : Nat
  closed : Bool

namespace Interval

/-- The ends are halfway to the neighbouring doubles; below a power of two these lie closer. -/
def ofDouble (d : Double) : Interval :=
  let below := if d.m = Nat.pow 2 52 ∧ -1074 < d.q then 1 else 2
  let unit := if 2 ≤ d.q then Nat.pow 2 (d.q - 2).toNat else 1
  { low := (4 * d.m - below) * unit
    value := 4 * d.m * unit
    high := (4 * d.m + 2) * unit
    den := if 2 ≤ d.q then 1 else Nat.pow 2 (2 - d.q).toNat
    closed := d.m % 2 == 0 }

/-- The interval measured in units of `10 ^ k`. -/
def scale (i : Interval) (k : Int) : Interval :=
  if 0 ≤ k then { i with den := i.den * Nat.pow 10 k.toNat }
  else
    let s := Nat.pow 10 (-k).toNat
    { i with low := i.low * s, value := i.value * s, high := i.high * s }

/-- Whether the whole number `n` is in the interval. -/
def contains (i : Interval) (n : Nat) : Bool :=
  if i.closed then i.low ≤ n * i.den && n * i.den ≤ i.high
  else i.low < n * i.den && n * i.den < i.high

/-- The whole number in the interval that is nearest to its value, the greater of two. -/
def nearest? (i : Interval) : Option Nat :=
  let n := i.value / i.den
  match i.contains n, i.contains (n + 1) with
  | true, true => if 2 * (i.value % i.den) < i.den then some n else some (n + 1)
  | true, false => some n
  | false, true => some (n + 1)
  | false, false => none

end Interval

/-! ## The search -/

/-- The shortest decimal that reads back as a positive double. -/
def shortest (d : Double) : Decimal :=
  let (num, den) := d.ratio
  let e := leadingExponent num den
  let i := Interval.ofDouble d
  let found := (List.range 17).findSome? fun (n : Nat) =>
    let k := e - n
    ((i.scale k).nearest?).map fun digits => (Decimal.mk digits k).trim
  found.getD ⟨0, 0⟩

end Lox.Number
