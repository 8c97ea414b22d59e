/-!
Numbers in double precision. The magnitudes are ranked upwards from zero: first the multiples of the
least one, and then, from each power of two to the next, as many again, twice as far apart as
before. A number is a sign and such a rank. What lies between two magnitudes goes to the nearer one,
and halfway to the one of even rank; what lies beyond the greatest is no number.
-/

set_option autoImplicit false
set_option relaxedAutoImplicit false

namespace Rollout

/-- A finite number in double precision. -/
structure Double where
  negative : Bool
  /-- How many magnitudes are smaller. -/
  rank : Nat
  rank_lt : rank < 9218868437227405312
deriving DecidableEq, Repr

namespace Double

/-- How many magnitudes there are from a power of two to the next: two to the power 52. -/
def perOctave : Nat := 4503599627370496

/-- The whole number `m` of the form `m * 2 ^ e` of a magnitude. -/
def significand (x : Double) : Nat :=
  if x.rank < perOctave then x.rank else perOctave + x.rank % perOctave

/-- The power `e` of the form `m * 2 ^ e` of a magnitude. -/
def exponent (x : Double) : Int :=
  if x.rank < perOctave then -1074 else (x.rank / perOctave : Nat) - 1075

/-- The magnitude times its denominator. -/
def numerator (x : Double) : Nat := x.significand <<< x.exponent.toNat

/-- A power of two that makes the magnitude whole. -/
def denominator (x : Double) : Nat := 1 <<< (-x.exponent).toNat

/-- The whole number nearest to a quotient, and halfway the even one. -/
def nearestWhole (a b : Nat) : Nat :=
  if 2 * (a % b) < b || 2 * (a % b) == b && a / b % 2 == 0 then a / b else a / b + 1

/-- A rounded quotient is within half a unit of the exact one. -/
theorem nearestWhole_near (a b : Nat) (h : 0 < b) :
    2 * (nearestWhole a b * b) ≤ 2 * a + b ∧ 2 * a ≤ 2 * (nearestWhole a b * b) + b := by
  have hdiv : a / b * b + a % b = a := Nat.div_add_mod' a b
  have hlt : a % b < b := Nat.mod_lt a h
  unfold nearestWhole
  split
  · next hdown =>
    simp only [Bool.or_eq_true, Bool.and_eq_true, decide_eq_true_eq, beq_iff_eq] at hdown
    omega
  · next hup =>
    simp only [Bool.or_eq_true, Bool.and_eq_true, decide_eq_true_eq, beq_iff_eq] at hup
    rw [Nat.add_mul]
    omega

/-- The exponent of the power of two at or just below a quotient of two positive numbers. -/
def octave (a b : Nat) : Int :=
  let d : Int := a.log2 - b.log2
  if b <<< d.toNat ≤ a <<< (-d).toNat then d else d - 1

/-- The rank nearest to a quotient, counted on beyond the greatest. -/
def nearestRank (a b : Nat) : Nat :=
  if a = 0 then 0
  else
    let e := if octave a b < -1022 then -1074 else octave a b - 52
    (e + 1074).toNat * perOctave + nearestWhole (a <<< (-e).toNat) (b <<< e.toNat)

/-- The number nearest to a quotient. -/
def nearest? (negative : Bool) (a b : Nat) : Option Double :=
  let rank := nearestRank a b
  if h : rank < 9218868437227405312 then some ⟨negative, rank, h⟩ else none

/-- The number nearest to a power of ten. -/
def powerOfTen? (k : Nat) : Option Double := nearest? false (Nat.pow 10 k) 1

/-- The number nearest to a product. -/
def times? (x y : Double) : Option Double :=
  nearest? (x.negative != y.negative) (x.numerator * y.numerator) (x.denominator * y.denominator)

/-- The number nearest to a quotient of numbers. -/
def dividedBy? (x y : Double) : Option Double :=
  nearest? (x.negative != y.negative) (x.numerator * y.denominator) (x.denominator * y.numerator)

/-- A number raised by a power of ten. -/
def raised? (x : Double) (k : Nat) : Option Double :=
  if x.rank = 0 then some x else (powerOfTen? k).bind x.times?

/-- A number lowered by a power of ten, at most 308 places at a time. -/
def lowered? (x : Double) (k : Nat) : Option Double :=
  if x.rank = 0 then some x
  else if k ≤ 308 then (powerOfTen? k).bind x.dividedBy?
  else ((powerOfTen? 308).bind x.dividedBy?).bind fun y ↦ y.lowered? (k - 308)
termination_by k

end Double

end Rollout
