import Rollout.Double

/-!
The shortest decimal of a number. Of the decimals that read back as the number, these have the
fewest digits, and of those it is the nearest. Each count of digits gives a grid of decimals, and
only the two grid points next to the number can be nearest to it.
-/

set_option autoImplicit false
set_option relaxedAutoImplicit false

namespace Rollout.Double

/-- A decimal without sign, `digits * 10 ^ exponent`. -/
structure Decimal where
  digits : Nat
  exponent : Int
deriving DecidableEq, Repr

/-- The decimal times its denominator. -/
def Decimal.numerator (d : Decimal) : Nat := d.digits * Nat.pow 10 d.exponent.toNat

/-- A power of ten that makes the decimal whole. -/
def Decimal.denominator (d : Decimal) : Nat := Nat.pow 10 (-d.exponent).toNat

/-- Whether a decimal is read as a magnitude. -/
def readsBack (x : Double) (d : Decimal) : Bool :=
  nearestRank d.numerator d.denominator == x.rank

/-- How many digits a whole number has; zero has none. -/
def digitCount (n : Nat) : Nat := if n = 0 then 0 else (Nat.toDigits 10 n).length

/-- The exponent of the least power of ten above a magnitude. -/
def decade (x : Double) : Int :=
  if x.denominator ≤ x.numerator then digitCount (x.numerator / x.denominator)
  else 1 - (digitCount ((x.denominator - 1) / x.numerator) : Int)

/-- The decimal with this exponent that reads back, the nearer one first. -/
def onGrid? (x : Double) (e : Int) : Option Decimal :=
  let a := x.numerator * Nat.pow 10 (-e).toNat
  let b := x.denominator * Nat.pow 10 e.toNat
  ([nearestWhole a b, a / b, a / b + 1].map (⟨·, e⟩)).find? x.readsBack

/-- The decimal that is exactly the magnitude. -/
def exactly (x : Double) : Decimal :=
  ⟨x.numerator * Nat.pow 5 (-x.exponent).toNat, if x.exponent < 0 then x.exponent else 0⟩

/-- The decimal of fewest digits that reads back, and the nearest of those. Seventeen digits always
do. -/
def shortest (x : Double) : Decimal :=
  ((List.range 17).findSome? fun n ↦ x.onGrid? (x.decade - (n + 1 : Nat))).getD x.exactly

end Rollout.Double
