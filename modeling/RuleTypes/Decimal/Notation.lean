import RuleTypes.Decimal.Shortest
import RuleTypes.Text.Numeral

/-!
# Writing binary numbers in decimal

A number is written with the fewest digits that read back, positionally or with an exponent.
-/

namespace RuleTypes

/-- The decisions that the shortest digits leave open. -/
structure DecimalNotation where
  /-- The least number of digits before the point that is still written positionally; it is negative
  where zeros follow the point. -/
  leastPoint : Int
  /-- The greatest such number. -/
  greatestPoint : Int
  /-- The least number of digits of an exponent. -/
  exponentWidth : Nat
  notANumber : Text
  infinity : Text

namespace DecimalNotation

variable (f : DecimalNotation)

def zeros (count : Nat) : Text := List.replicate count '0'

/-- An exponent with its sign and filled up with zeros. -/
def exponent (e : Int) : Text :=
  let digits := Numeral.decimal e.natAbs
  "e" ++ (if e < 0 then "-" else "+") ++ zeros (f.exponentWidth - digits.length) ++ digits

/-- The digits with the decimal point behind the first `point` of them. A number without a fraction
keeps one zero behind the point. -/
def positional (digits : Text) (point : Int) : Text :=
  if point ≤ 0 then "0." ++ zeros (-point).toNat ++ digits
  else
    let whole := digits.take point.toNat ++ zeros (point.toNat - digits.length)
    let fraction := digits.drop point.toNat
    whole ++ "." ++ (if fraction.isEmpty then zeros 1 else fraction)

/-- The digits with a point behind the first one and an exponent. -/
def scientific (digits : Text) (point : Int) : Text :=
  let fraction := digits.drop 1
  let pointed : Text := if fraction.isEmpty then [] else '.' :: fraction
  digits.take 1 ++ pointed ++ f.exponent (point - 1)

/-- The text of a decimal. -/
def decimal (x : Binary64.Decimal) : Text :=
  let digits := Numeral.decimal x.digits
  let point := digits.length + x.exponent
  let digits := (digits.reverse.dropWhile (· = CodePoint.ofChar '0')).reverse
  if f.leastPoint ≤ point ∧ point ≤ f.greatestPoint then positional digits point
  else f.scientific digits point

/-- The text of a number without its sign. -/
def magnitude (mantissa : Nat) (exponent : Int) : Text :=
  if mantissa = 0 then "0.0" else f.decimal (Binary64.shortest mantissa exponent)

/-- A minus sign before a text. -/
def negate (negative : Bool) (t : Text) : Text := if negative then '-' :: t else t

/-- The text of a number. -/
def render : Binary64 → Text
  | .notANumber => f.notANumber
  | .infinite negative => negate negative f.infinity
  | .finite negative mantissa exponent => negate negative (f.magnitude mantissa exponent)

end DecimalNotation

end RuleTypes
