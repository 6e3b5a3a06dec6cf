/-!
Double-precision numbers as bit patterns, with the two conversions that a text
format needs: the nearest double to a decimal, ties to the even significand, and
the decimal with the fewest places that reads back as a given double.

A magnitude is a whole number of units of 2^-1074, the least positive double:
the significand times a power of two. Both conversions are exact arithmetic on
natural numbers in that unit.
-/

namespace Offside

structure Binary64 where
  bits : UInt64
  deriving DecidableEq, Repr, Inhabited

namespace Binary64

def binade : Nat := Nat.pow 2 52

def unitsInOne : Nat := Nat.pow 2 1074

def infinity : Nat := 2047 * binade

def negative (x : Binary64) : Bool :=
  2048 * binade ≤ x.bits.toNat

def magnitude (x : Binary64) : Nat :=
  x.bits.toNat % (2048 * binade)

def isFinite (x : Binary64) : Bool :=
  x.magnitude < infinity

/-- Doublings of the unit; none in the lowest two binades. -/
def scale (x : Binary64) : Nat :=
  x.magnitude / binade - 1

def significand (x : Binary64) : Nat :=
  x.magnitude - x.scale * binade

def units (x : Binary64) : Nat :=
  x.significand * Nat.pow 2 x.scale

/-- A quotient to the nearest natural number, a half to the even neighbour. -/
def roundDiv (n d : Nat) : Nat :=
  let floor := n / d
  let rest := n % d
  if 2 * rest < d ∨ (2 * rest = d ∧ floor % 2 = 0) then floor else floor + 1

theorem roundDiv_mul {d : Nat} (h : 0 < d) (q : Nat) : roundDiv (q * d) d = q := by
  simp [roundDiv, h]

def scaleOf (units : Nat) : Nat :=
  units.log2 - 52

/-- The double nearest to `digits / 10 ^ places`, infinite past the largest. A carry out
of the significand moves on to the next binade by itself. -/
def ofDecimal (digits places : Nat) : Binary64 :=
  let scale := scaleOf (digits * unitsInOne / Nat.pow 10 places)
  let significand := roundDiv (digits * unitsInOne) (Nat.pow 10 places * Nat.pow 2 scale)
  ⟨UInt64.ofNat (min (scale * binade + significand) infinity)⟩

def readsBack (x : Binary64) (places digits : Nat) : Bool :=
  (ofDecimal digits places).magnitude == x.magnitude

/-- Of the two neighbours with the given number of places, the one that reads back; the
nearer if both do, the upper if they are equally near. -/
def digitsAt (x : Binary64) (places : Nat) : Option Nat :=
  let floor := x.units * Nat.pow 10 places / unitsInOne
  let rest := x.units * Nat.pow 10 places % unitsInOne
  let ceiling := if rest = 0 then floor else floor + 1
  if x.readsBack places floor then
    if x.readsBack places ceiling && unitsInOne ≤ 2 * rest then some ceiling else some floor
  else if x.readsBack places ceiling then some ceiling
  else none

/-- The fewest places, at least one, at which a neighbour reads back, with its digits.
Each double is a whole multiple of 10^-1074, so the search ends there. -/
def shortest (x : Binary64) : Nat × Nat :=
  ((List.range' 1 1074).findSome? fun places => (x.digitsAt places).map (places, ·)).getD
    (1074, x.units * Nat.pow 5 1074)

def positional (places digits : Nat) : String :=
  let fraction := Nat.toDigits 10 (digits % Nat.pow 10 places)
  toString (digits / Nat.pow 10 places) ++ "." ++
    String.ofList (List.replicate (places - fraction.length) '0' ++ fraction)

def text (x : Binary64) : String :=
  if infinity < x.magnitude then "NaN"
  else
    let sign := if x.negative then "-" else ""
    if x.magnitude = infinity then sign ++ "inf"
    else sign ++ positional x.shortest.1 x.shortest.2

end Binary64

end Offside
