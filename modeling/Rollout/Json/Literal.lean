import Rollout.Json

/-!
Number texts and what they stand for. A number that is written with digits alone and fits 64 bits,
signed if it is below zero and unsigned if not, is whole. Any other is kept in double precision: as
many of its digits are taken as make a number of 64 bits, and that number is raised or lowered by
the power of ten that is left.
-/

set_option autoImplicit false
set_option relaxedAutoImplicit false

namespace Rollout.Json

/-- A number as it is written. The digits behind the point and the power of ten may lack. -/
structure Literal where
  negative : Bool
  whole : List Nat
  places : Option (List Nat)
  power : Option Int

namespace Literal

/-- The number that some digits make. -/
def ofDigits (digits : List Nat) : Nat := digits.foldl (fun n d ↦ 10 * n + d) 0

/-- Whether a number is written with digits and a sign alone. -/
def isPlain (l : Literal) : Bool := l.places.isNone && l.power.isNone

/-- The number that is written with digits alone. -/
def natural? (l : Literal) : Option Nat :=
  if l.isPlain && !l.negative then some (ofDigits l.whole) else none

/-- The number that is written with digits and a sign alone, if it fits 64 bits. A zero with a sign
does not count. -/
def integer? (l : Literal) : Option Int :=
  let n := ofDigits l.whole
  if !l.isPlain then none
  else if l.negative then if 0 < n && n ≤ UInt64.size / 2 then some (-n) else none
  else if n < UInt64.size then some n
  else none

/-- A number with digits of others behind it, as long as it fits 64 bits, and the digits for which
there is no room. -/
def taken (n : Nat) : List Nat → Nat × List Nat
  | [] => (n, [])
  | d :: rest =>
    if 10 * n + d < UInt64.size then taken (10 * n + d) rest else (n, d :: rest)

theorem taken_lt {n : Nat} (digits : List Nat) (h : n < UInt64.size) :
    (taken n digits).1 < UInt64.size := by
  fun_induction taken n digits with
  | case1 => exact h
  | case2 _ _ _ hroom ih => exact ih hroom
  | case3 => exact h

/-- The number in double precision. Digits before the point for which there is no room count as
places, and those behind it do not count at all. -/
def double? (l : Literal) : Option Double :=
  let (n, left) := taken 0 l.whole
  let places := l.places.getD []
  let (n, ignored) := taken n places
  let power : Int := l.power.getD 0 + left.length + ignored.length - places.length
  (Double.nearest? l.negative n 1).bind fun x ↦
    if 0 ≤ power then x.raised? power.toNat else x.lowered? (-power).toNat

/-- The number as a value, unless it is too large for any. -/
def value? (l : Literal) : Option Json :=
  (l.integer?.map int).or (l.double?.map real)

end Literal

end Rollout.Json
