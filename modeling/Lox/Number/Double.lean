/-!
# Doubles as exact numbers

A finite double is `m · 2 ^ q`, up to its sign, with `m < 2 ^ 53` and `-1074 ≤ q`.  `ofFloat?`
reads the two numbers off a double and `ofRatio` goes back: it takes a quotient of naturals to the
double nearest to it, a half going to the even neighbour.  With both, text and remainders are
computed in exact arithmetic.
-/

namespace Lox.Number

/-- A finite double: `m · 2 ^ q`, negated if `negative`. -/
structure Double where
  negative : Bool
  m : Nat
  q : Int
deriving DecidableEq, Repr

namespace Double

/-- The number a double stands for, unless it is infinite or no number at all. -/
def ofFloat? (x : Float) : Option Double :=
  let bits : Nat := x.toBits.toNat
  let field : Nat := bits / Nat.pow 2 52 % Nat.pow 2 11
  let fraction : Nat := bits % Nat.pow 2 52
  let negative := bits / Nat.pow 2 63 == 1
  if field = 2047 then none
  else if field = 0 then some ⟨negative, fraction, -1074⟩
  else some ⟨negative, Nat.pow 2 52 + fraction, (field : Int) - 1075⟩

/-- The magnitude of a double, if it is whole. -/
def whole? (d : Double) : Option Nat :=
  if 0 ≤ d.q then some (d.m * Nat.pow 2 d.q.toNat)
  else if d.m % Nat.pow 2 (-d.q).toNat = 0 then some (d.m / Nat.pow 2 (-d.q).toNat)
  else none

/-- The magnitude of a double as numerator and denominator. -/
def ratio (d : Double) : Nat × Nat :=
  if 0 ≤ d.q then (d.m * Nat.pow 2 d.q.toNat, 1) else (d.m, Nat.pow 2 (-d.q).toNat)

end Double

/-- The quotient of `num` and `den`, rounded to the nearest natural, a half to the even one. -/
def roundQuotient (num den : Nat) : Nat :=
  let n := num / den
  let r := num % den
  if den < 2 * r ∨ (den = 2 * r ∧ n % 2 = 1) then n + 1 else n

/-- The bits of the non-negative double nearest to `num / den`, for positive `den`.  Halfway
between two doubles the one with even `m` is taken; from halfway past the greatest double on, it is
infinity. -/
def bitsOfRatio (num den : Nat) : Nat :=
  if num = 0 then 0
  else
    -- `num / den` lies between `2 ^ (e - 1)` and `2 ^ (e + 1)`
    let e : Int := (num.log2 : Int) - den.log2
    let scaled (q : Int) : Nat × Nat :=
      if 0 ≤ q then (num, den * Nat.pow 2 q.toNat) else (num * Nat.pow 2 (-q).toNat, den)
    let q := max (e - 53) (-1074)
    let (a, b) := scaled q
    let q := if a / b < Nat.pow 2 53 then q else q + 1
    let (a, b) := scaled q
    min ((q + 1074).toNat * Nat.pow 2 52 + roundQuotient a b) (2047 * Nat.pow 2 52)

/-- The non-negative double nearest to `num / den`, for positive `den`. -/
def ofRatio (num den : Nat) : Float :=
  Float.ofBits (bitsOfRatio num den).toUInt64

/-- The number written by decimal digits, the last `places` of them after the point. -/
def ofDigits (digits : List Char) (places : Nat) : Float :=
  ofRatio (digits.foldl (fun n c => 10 * n + (c.toNat - '0'.toNat)) 0) (Nat.pow 10 places)

/-! ## Remainder -/

/-- What is left of `x` after taking away `y` a whole number of times, towards zero; it has the
sign of `x`.  There is none of an infinite `x` or by a zero `y`, and all is left by an infinite
`y`. -/
def remainder (x y : Float) : Float :=
  match Double.ofFloat? x, Double.ofFloat? y with
  | some a, some b =>
    if b.m = 0 then 0.0 / 0.0
    else
      let (an, ad) := a.ratio
      let (bn, bd) := b.ratio
      let r := ofRatio (an * bd % (bn * ad)) (ad * bd)
      if a.negative then -r else r
  | some _, none => if y.isNaN then y else x
  | none, _ => 0.0 / 0.0

end Lox.Number
