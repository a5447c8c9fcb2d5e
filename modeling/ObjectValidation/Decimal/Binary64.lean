/-!
# Binary floating point numbers of 64 bits

A finite number is a sign and a count of *units*, where one unit is the least positive number,
`2 ^ -1074`. Every finite number is a whole count of units, so comparing, rounding and cutting off
are exact arithmetic on natural numbers.
-/

namespace ObjectValidation

/-- A binary floating point number; all the numbers that are no numbers count as one. -/
inductive Binary64
  | nan
  | infinite (negative : Bool)
  | finite (negative : Bool) (units : Nat)
  deriving DecidableEq, Repr, Inhabited

namespace Binary64

/-- The units in the number one. -/
def unitsOfOne : Nat := Nat.pow 2 1074

/-- The least count of units that is too large to be finite. -/
def unitsOfInfinity : Nat := Nat.pow 2 2098

/-- The quotient rounded to the nearest natural number, a tie to the even one. -/
def roundQuotient (num den : Nat) : Nat :=
  let q := num / den
  let r := num % den
  if 2 * r < den ∨ (2 * r = den ∧ q % 2 = 0) then q else q + 1

/-- The binary exponent of the grid of 53 significant bits on which `units` lies. -/
def gridExponent (units : Nat) : Nat :=
  if units < Nat.pow 2 53 then 0 else units.log2 - 52

/-- The number nearest to the fraction `num / den` of units, a tie to the even significand. -/
def nearest (negative : Bool) (num den : Nat) : Binary64 :=
  let step := Nat.pow 2 (gridExponent (num / den))
  let units := roundQuotient num (den * step) * step
  if units < unitsOfInfinity then .finite negative units else .infinite negative

/-- The number nearest to an integer. -/
def ofInt (n : Int) : Binary64 :=
  nearest (n < 0) (n.natAbs * unitsOfOne) 1

/-- The position of a number on the line, in units; infinity lies beyond all finite numbers. -/
def place? : Binary64 → Option Int
  | .nan => none
  | .infinite negative => some (if negative then -unitsOfInfinity else unitsOfInfinity)
  | .finite negative units => some (if negative then -units else units)

/-- How two numbers compare; what is no number compares with nothing. Both zeros are equal. -/
def compare? (x y : Binary64) : Option Ordering :=
  match x.place?, y.place? with
  | some a, some b => some (compare a b)
  | _, _ => none

/-- Equality of numbers: both zeros are equal, and what is no number differs from itself. -/
def same (x y : Binary64) : Bool := x.compare? y == some .eq

/-- Whether the first number is less than the second. -/
def below (x y : Binary64) : Bool := x.compare? y == some .lt

/-- The least and the greatest integer of 64 bits. -/
def leastInt : Int := -Int.pow 2 63
@[inherit_doc leastInt] def greatestInt : Int := Int.pow 2 63 - 1

/-- The number without its fraction, held within the integers of 64 bits; zero if it is none. -/
def truncate : Binary64 → Int
  | .nan => 0
  | .infinite negative => if negative then leastInt else greatestInt
  | .finite negative units =>
    let n : Int := (units / unitsOfOne : Nat)
    max leastInt (min greatestInt (if negative then -n else n))

end Binary64

end ObjectValidation
