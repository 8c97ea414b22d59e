import Rollout.Double.Shortest

/-!
How a number is laid out. Within a range of magnitudes its digits stand around a point, with at
least one on each side; outside it one digit stands before the point and a power of ten follows. The
bounds of that range are the choice of whoever writes the number.
-/

set_option autoImplicit false
set_option relaxedAutoImplicit false

namespace Rollout.Double

/-- The range of magnitudes that are written without a power of ten. -/
structure Layout where
  /-- The least place of a leading digit that is written without a power. -/
  least : Int
  /-- The greatest place of a leading digit that is written without a power. -/
  greatest : Int

namespace Layout

/-- Digits around a point, the leading one at a place counted from the units. -/
def plain (digits : List Char) (place : Int) : List Char :=
  if place < 0 then '0' :: '.' :: (List.replicate (-place - 1).toNat '0' ++ digits)
  else
    let whole := place.toNat + 1
    let rest := digits.drop whole
    digits.take whole ++ List.replicate (whole - digits.length) '0' ++
      '.' :: (if rest.isEmpty then ['0'] else rest)

/-- One digit before the point and a power of ten behind, always with its sign. -/
def powered (digits : List Char) (place : Int) : List Char :=
  let rest := digits.drop 1
  digits.take 1 ++ (if rest.isEmpty then [] else '.' :: rest) ++
    'e' :: (if place < 0 then '-' else '+') :: Nat.toDigits 10 place.natAbs

/-- A number as it is written, with its shortest decimal. -/
def text (l : Layout) (x : Double) : String :=
  let d := x.shortest
  let all := Nat.toDigits 10 d.digits
  let digits := (all.reverse.dropWhile (· == '0')).reverse
  let place : Int := d.exponent + all.length - 1
  let unsigned :=
    if l.least ≤ place && place ≤ l.greatest then plain digits place
    else powered digits place
  String.ofList (if x.negative then '-' :: unsigned else unsigned)

end Layout

end Rollout.Double
