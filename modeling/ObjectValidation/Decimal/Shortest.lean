import ObjectValidation.Decimal.Binary64
/-!
# The shortest decimal of a floating point number

The text of a finite number has the fewest significant digits that read back as the same number,
and of those the nearest; of two equally near the one further from zero. It is always written out
in positions, never with an exponent, and a whole number has no point.
-/

namespace ObjectValidation.Binary64

/-- A decimal `digits * 10 ^ exponent`. -/
structure Decimal where
  digits : Nat
  exponent : Int
  deriving DecidableEq, Repr

/-- The reals that round to a positive count of units, in quarters of a unit. -/
structure Basin where
  low : Nat
  high : Nat
  /-- Whether the two ends round to the number as well, which they do for an even significand. -/
  closed : Bool

/-- The basin of a number. It is narrower below a power of two, where the grid is finer. -/
def basin (units : Nat) : Basin :=
  let q := gridExponent units
  let step := Nat.pow 2 q
  let significand := units / step
  { low := 4 * units - (if significand = Nat.pow 2 52 ∧ q ≠ 0 then step else 2 * step)
    high := 4 * units + 2 * step
    closed := significand % 2 == 0 }

/-- Whether the fraction `num / den` of quarter units lies in the basin. -/
def Basin.contains (b : Basin) (num den : Nat) : Bool :=
  if b.closed then b.low * den ≤ num && num ≤ b.high * den
  else b.low * den < num && num < b.high * den

/-- The digits of the decimal at grid `10 ^ exponent` that reads back as `units`, if there is one:
the nearer of the two neighbours on that grid, the upper one in a tie. -/
def onGrid? (units : Nat) (exponent : Int) : Option Nat :=
  -- A grid step is `num / den` units.
  let num := if exponent < 0 then unitsOfOne else Nat.pow 10 exponent.toNat * unitsOfOne
  let den := if exponent < 0 then Nat.pow 10 (-exponent).toNat else 1
  let lower := units * den / num
  let upper := lower + 1
  let fits := fun d => (basin units).contains (4 * d * num) den
  let upperIsNearer := upper * num - units * den ≤ units * den - lower * num
  if fits upper && (upperIsNearer || !fits lower) then some upper
  else if fits lower then some lower
  else none

/-- The exponent of the first significant digit of `units`, found among those of all numbers. -/
def leadingExponent (units : Nat) : Int :=
  let reaches := fun e : Nat => Nat.pow 10 e * unitsOfOne ≤ units * Nat.pow 10 324
  ((List.range 634).countP reaches : Nat) - 1 - 324

/-- The first decimal found with one digit, two digits and so on; seventeen are always enough. -/
def shortest (units : Nat) : Decimal :=
  let lead := leadingExponent units
  let found := (List.range 17).findSome? fun (n : Nat) =>
    (onGrid? units (lead - n)).map fun digits => { digits, exponent := lead - n : Decimal }
  found.getD { digits := 0, exponent := 0 }

/-- A decimal without zeros at its end. -/
def Decimal.stripped : Nat → Decimal → Decimal
  | 0, d => d
  | n + 1, d =>
    if d.digits % 10 = 0 then stripped n { digits := d.digits / 10, exponent := d.exponent + 1 }
    else d

/-- A decimal in positions, with a point only where there is a fraction. -/
def Decimal.text (d : Decimal) : String :=
  let digits := (toString d.digits).toList
  if 0 ≤ d.exponent then
    String.ofList (digits ++ List.replicate d.exponent.toNat '0')
  else
    let places := (-d.exponent).toNat
    let padded := List.replicate (places + 1 - digits.length) '0' ++ digits
    let whole := padded.length - places
    String.ofList (padded.take whole ++ '.' :: padded.drop whole)

/-- The text of a number. -/
def text : Binary64 → String
  | .nan => "NaN"
  | .infinite negative => if negative then "-inf" else "inf"
  | .finite negative units =>
    let magnitude := if units = 0 then "0" else ((shortest units).stripped 17).text
    if negative then "-" ++ magnitude else magnitude

instance : ToString Binary64 := ⟨text⟩

end ObjectValidation.Binary64
