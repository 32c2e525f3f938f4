import StatePrep.Number.Scalar

/-! # Machine floats as scalars

The IEEE doubles of the machine, with their own arithmetic and comparison. The machine has no
length function of its own here. `Binary64.hypot` takes the root of the sum of the squares and then
corrects it by what its square misses: a length that is a float comes out exactly, as 5 does for the
coordinates 3 and 4. Coordinates whose squares would overflow or vanish are scaled before, by a
power of two, which rounds nothing. -/

namespace StatePrep

namespace Binary64

/-- By how much `h * h` exceeds `long * long + short * short`, where `h` is close to the length.
Since `h * h` itself would round away what is asked for, it is put together from the difference of
`h` and a coordinate within a factor of two of it, which is exact. -/
def excess (long short h : Float) : Float :=
  if h ≤ 2.0 * short then
    let delta := h - short
    long * (2.0 * delta - long) + (delta - 2.0 * (long - short)) * delta
  else
    let delta := h - long
    2.0 * delta * (long - 2.0 * short) + ((4.0 * delta - short) * short + delta * delta)

/-- The length of a vector whose coordinates have squares that neither overflow nor vanish: a first
value, and one step of Newton's method from it. -/
def correctedLength (long short : Float) : Float :=
  let h := (long * long + short * short).sqrt
  h - excess long short h / (2.0 * h)

/-- The power of two to scale the coordinates by before they are squared. -/
def lengthScale (long short : Float) : Float :=
  if long > (1.0 : Float).scaleB 511 then (1.0 : Float).scaleB (-600)
  else if short < (1.0 : Float).scaleB (-459) then (1.0 : Float).scaleB 600
  else 1.0

/-- The length of the vector `(x, y)`. An infinite coordinate decides before an undefined one, and a
coordinate too short to change the last bit of the other is just added to it. -/
def hypot (x y : Float) : Float :=
  let a := x.abs
  let b := y.abs
  if a.isInf || b.isInf then 1.0 / 0.0
  else if a.isNaN || b.isNaN then 0.0 / 0.0
  else
    let long := if a < b then b else a
    let short := if a < b then a else b
    if short * (1.0 : Float).scaleB 54 ≤ long then long + short
    else
      let scale := lengthScale long short
      correctedLength (long * scale) (short * scale) / scale

end Binary64

instance : Scalar Float where
  natCast := Float.ofNat
  intCast := Float.ofInt
  decLT := inferInstance
  decLE := inferInstance
  abs := Float.abs
  isFinite := Float.isFinite

instance : Analytic Float where
  pi := 3.141592653589793
  sqrt := Float.sqrt
  sin := Float.sin
  cos := Float.cos
  hypot := Binary64.hypot
  atan2 := Float.atan2

end StatePrep
