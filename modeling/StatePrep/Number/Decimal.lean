import StatePrep.Number.Scalar

/-! # Shortest decimals

A machine float stands for every real number that rounds to it. `Magnitude.shortest` picks a
decimal from that interval: one with the fewest digits, and of those the nearest to the float. For
a number of digits only the two neighbours of the float on the decimal grid of that many digits
have to be tried, since a grid point of the interval further away leaves a nearer one inside.

All comparisons are between natural numbers: both sides are multiplied by the powers of two and ten
that make them whole. -/

namespace StatePrep

/-- The number `mantissa * 2 ^ exponent`, and the shape of the interval of reals around it. -/
structure Magnitude where
  mantissa : Nat
  /-- The power of two it is multiplied by. -/
  exponent : Int
  /-- Whether the next smaller float is only half a unit away, as it is below a power of two. -/
  narrow : Bool

/-- The number `digits * 10 ^ exponent`. -/
structure Decimal where
  /-- The digits, read as one natural number. -/
  digits : Nat
  /-- The power of ten they are multiplied by. -/
  exponent : Int

/-- The number of decimal digits of a natural number, one for zero. -/
def digitCount (n : Nat) : Nat := (Nat.toDigits 10 n).length

namespace Magnitude

/-! ### The rounding interval, in quarters of a unit -/

/-- The lower end of the interval, in units of `2 ^ (exponent - 2)`. -/
def lower (v : Magnitude) : Nat := if v.narrow then 4 * v.mantissa - 1 else 4 * v.mantissa - 2

/-- The upper end of the interval, in units of `2 ^ (exponent - 2)`. -/
def upper (v : Magnitude) : Nat := 4 * v.mantissa + 2

/-- What a count of quarter units is multiplied by to compare it on the grid of step `10 ^ k`. -/
def unitScale (v : Magnitude) (k : Int) : Nat := 2 ^ (v.exponent - 2).toNat * 10 ^ (-k).toNat

/-- What a count of grid steps is multiplied by to compare it with quarter units. -/
def gridScale (v : Magnitude) (k : Int) : Nat := 10 ^ k.toNat * 2 ^ (2 - v.exponent).toNat

/-- Whether `d * 10 ^ k` rounds to the float. The ends belong to the interval exactly when the
significand is even. -/
def holds (v : Magnitude) (k : Int) (d : Nat) : Bool :=
  let point := d * v.gridScale k
  let low := v.lower * v.unitScale k
  let high := v.upper * v.unitScale k
  if v.mantissa % 2 = 0 then low ≤ point && point ≤ high else low < point && point < high

/-! ### The search -/

/-- The power of ten just above the float: `10 ^ (top - 1) ≤ value < 10 ^ top`. -/
def top (v : Magnitude) : Int :=
  let num := v.mantissa * 2 ^ v.exponent.toNat
  let den := 2 ^ (-v.exponent).toNat
  if den ≤ num then digitCount (num / den) else 1 - digitCount (den / num)

/-- The last grid point of step `10 ^ k` that is not above the float. -/
def floorOn (v : Magnitude) (k : Int) : Nat := 4 * v.mantissa * v.unitScale k / v.gridScale k

/-- The neighbour of the float on the grid of step `10 ^ k` that rounds to it. Of two, the nearer,
and the upper one halfway between them. -/
def neighbour? (v : Magnitude) (k : Int) : Option Decimal :=
  let below := v.floorOn k
  let value := 4 * v.mantissa * v.unitScale k
  match v.holds k below, v.holds k (below + 1) with
  | true, true =>
    if value - below * v.gridScale k < (below + 1) * v.gridScale k - value then some ⟨below, k⟩
    else some ⟨below + 1, k⟩
  | true, false => some ⟨below, k⟩
  | false, true => some ⟨below + 1, k⟩
  | false, false => none

/-- The shortest decimal that rounds to the float, and the nearest of these. Seventeen digits are
always enough. -/
def shortest (v : Magnitude) : Decimal :=
  ((List.range 17).findSome? fun (n : Nat) => v.neighbour? (v.top - (n + 1))).getD
    ⟨v.floorOn (v.top - 17), v.top - 17⟩

end Magnitude

/-! ### Positional text -/

namespace Decimal

/-- The digits without the zeros they end in. -/
def significant (d : Decimal) : List Char :=
  ((Nat.toDigits 10 d.digits).reverse.dropWhile (· == '0')).reverse

/-- The place of the decimal point, counted from the first digit. -/
def point (d : Decimal) : Int := digitCount d.digits + d.exponent

/-- The text without an exponent: the digits with the point among them, zeros before or after them
where they do not reach it, and no point in a whole number. -/
def text (d : Decimal) : String :=
  let digits := d.significant
  if d.point ≤ 0 then
    String.ofList ('0' :: '.' :: (List.replicate (-d.point).toNat '0' ++ digits))
  else
    let whole := d.point.toNat
    if digits.length ≤ whole then
      String.ofList (digits ++ List.replicate (whole - digits.length) '0')
    else String.ofList (digits.take whole ++ '.' :: digits.drop whole)

end Decimal

/-! ### Machine floats -/

namespace Binary64

/-- The number of bits that keep the significand behind its leading one. -/
def fractionBits : Nat := 52

/-- The number of bits that keep the exponent. -/
def exponentBits : Nat := 11

/-- The magnitude of a finite float, from its significand and exponent bits. The exponent is kept
with an offset of 1075, and a stored zero stands for the same exponent as a stored one. -/
def magnitude (x : Float) : Magnitude :=
  let bits := x.toBits.toNat
  let fraction := bits % 2 ^ fractionBits
  let exponent := bits / 2 ^ fractionBits % 2 ^ exponentBits
  { mantissa := if exponent = 0 then fraction else 2 ^ fractionBits + fraction
    exponent := (max exponent 1 : Nat) - 1075
    narrow := fraction = 0 && 1 < exponent }

/-- Whether the sign bit is set, as it is on a negative zero. -/
def isNegative (x : Float) : Bool := x.toBits.toNat / 2 ^ (fractionBits + exponentBits) == 1

/-- The text of a float: the fewest digits that read back as it, written without an exponent. A zero
keeps its sign, a value that is not a number has none. -/
def text (x : Float) : String :=
  let unsigned :=
    if x.isInf then "inf" else if x == 0.0 then "0" else (magnitude x).shortest.text
  if x.isNaN then "NaN" else if isNegative x then "-" ++ unsigned else unsigned

end Binary64

end StatePrep
