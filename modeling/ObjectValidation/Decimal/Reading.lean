import ObjectValidation.Decimal.Binary64
/-!
# Reading decimals

A decimal is an optional sign, digits with an optional point, and an optional exponent. It reads
as the nearest floating point number.
-/

namespace ObjectValidation.Binary64

/-- The number that a list of decimal digits writes. -/
def ofDigits (cs : List Char) : Nat :=
  cs.foldl (fun n c => 10 * n + (c.toNat - '0'.toNat)) 0

/-- The sign in front of a text, true for a minus, and the rest. -/
def splitSign : List Char → Bool × List Char
  | '-' :: cs => (true, cs)
  | '+' :: cs => (false, cs)
  | cs => (false, cs)

/-- The value of an exponent part, which is empty or a mark with a signed number. -/
def readExponent? : List Char → Option Int
  | [] => some 0
  | c :: cs =>
    let (negative, digits) := splitSign cs
    if (c == 'e' || c == 'E') && !digits.isEmpty && digits.all Char.isDigit then
      let n : Int := ofDigits digits
      some (if negative then -n else n)
    else none

/-- The number nearest to `digits * 10 ^ exponent`. An exponent so large or so small that the result
is infinite or zero whatever the digits are is never raised to its power. -/
def ofDecimal (negative : Bool) (digits : Nat) (exponent : Int) : Binary64 :=
  if digits = 0 then .finite negative 0
  else if 400 < exponent then .infinite negative
  else if exponent < -400 - (toString digits).length then .finite negative 0
  else if 0 ≤ exponent then nearest negative (digits * Nat.pow 10 exponent.toNat * unitsOfOne) 1
  else nearest negative (digits * unitsOfOne) (Nat.pow 10 (-exponent).toNat)

/-- The magnitude that follows a sign. -/
def readMagnitude? (negative : Bool) (cs : List Char) : Option Binary64 :=
  let whole := cs.takeWhile Char.isDigit
  let rest := cs.dropWhile Char.isDigit
  let (fraction, rest) :=
    match rest with
    | '.' :: more => (more.takeWhile Char.isDigit, more.dropWhile Char.isDigit)
    | _ => ([], rest)
  if whole.isEmpty && fraction.isEmpty then none
  else (readExponent? rest).map fun e =>
    ofDecimal negative (ofDigits (whole ++ fraction)) (e - fraction.length)

/-- The floating point number that a text writes. -/
def read? (s : String) : Option Binary64 :=
  let (negative, cs) := splitSign s.toList
  match String.ofList (cs.map Char.toLower) with
  | "nan" => some .nan
  | "inf" | "infinity" => some (.infinite negative)
  | _ => readMagnitude? negative cs

end ObjectValidation.Binary64
