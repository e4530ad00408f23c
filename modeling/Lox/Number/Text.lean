import Lox.Number.Shortest

/-!
# How numbers are written

A number is written by its shortest digits.  A `Style` fixes the rest: the names of what is not
finite, and from which sizes on the exponent is written out.  `Style.value` is how programs print
numbers and `Style.plain` how outlines of expressions do.
-/

namespace Lox.Number

/-- The choices in writing a number. -/
structure Style where
  /-- Numbers whose first digit counts `10 ^ e` with `low ≤ e < high` need no exponent. -/
  low : Int
  high : Int
  notANumber : String
  infinity : String
  negativeInfinity : String

namespace Style

/-- The digits around a point, with the zeros that the exponent asks for. -/
def positional (d : Decimal) : String :=
  let digits := Nat.toDigits 10 d.digits
  if 0 ≤ d.exponent then String.ofList (digits ++ List.replicate d.exponent.toNat '0')
  else
    let places := (-d.exponent).toNat
    let padded := List.replicate (places + 1 - digits.length) '0' ++ digits
    let whole := padded.length - places
    String.ofList (padded.take whole ++ '.' :: padded.drop whole)

/-- One digit before the point, then the exponent with its sign and at least two digits. -/
def scientific (d : Decimal) : String :=
  let mantissa := match Nat.toDigits 10 d.digits with
    | first :: [] => [first]
    | first :: rest => first :: '.' :: rest
    | [] => []
  let e := d.leading
  let size := toString e.natAbs
  String.ofList mantissa ++ (if e < 0 then "e-" else "e+") ++
    (if e.natAbs < 10 then "0" ++ size else size)

/-- The text of a number. -/
def text (style : Style) (x : Float) : String :=
  match Double.ofFloat? x with
  | none =>
    if x.isNaN then style.notANumber
    else if x < 0 then style.negativeInfinity
    else style.infinity
  | some d =>
    let magnitude :=
      if d.m = 0 then "0"
      else
        let decimal := shortest d
        if style.low ≤ decimal.leading ∧ decimal.leading < style.high then positional decimal
        else scientific decimal
    if d.negative then "-" ++ magnitude else magnitude

/-- Values are positional from `1e-4` up to, and without, `1e21`. -/
def value : Style := ⟨-4, 21, "NaN", "+Inf", "-Inf"⟩

/-- Every double is positional: their first digits count `10 ^ -324` to `10 ^ 308`. -/
def plain : Style := ⟨-324, 309, "NaN", "inf", "-inf"⟩

end Style

end Lox.Number
