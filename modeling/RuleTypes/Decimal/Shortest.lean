import RuleTypes.Decimal.Binary64

/-!
# The fewest digits that read back

Among the decimals that round to a given binary number, `shortest` finds one with the fewest digits,
and of those the nearest; a tie goes to the even last digit. A decimal with `n` digits is looked for
among the two neighbours of the number on the grid of such decimals, for `n` from one to seventeen.
-/

namespace RuleTypes.Binary64

/-- The number of decimal digits of a positive integer. -/
def digitCount (n : Nat) : Nat := (Nat.toDigits 10 n).length

/-- The `k` with `10 ^ (k - 1) ≤ n / d < 10 ^ k`, for positive `n` and `d`. -/
def magnitude (n d : Nat) : Int :=
  if d ≤ n then digitCount (n / d) else 1 - (digitCount ((d - 1) / n) : Int)

/-- A positive number with the interval of what rounds to it, all as multiples of one unit `n / d`:
the number is `4 · mantissa` units. -/
structure Neighbourhood where
  center : Nat
  low : Nat
  high : Nat
  /-- Whether the ends of the interval round to the number too. -/
  closed : Bool
  n : Nat
  d : Nat

/-- The neighbourhood of `mantissa · 2 ^ exponent`. Below a power of two the numbers lie twice as
close. -/
def neighbourhood (mantissa : Nat) (exponent : Int) : Neighbourhood where
  center := 4 * mantissa
  low := 4 * mantissa -
    (if mantissa = Nat.pow 2 (precision - 1) ∧ leastExponent < exponent then 1 else 2)
  high := 4 * mantissa + 2
  closed := mantissa % 2 = 0
  n := Nat.pow 2 (exponent - 2).toNat
  d := Nat.pow 2 (2 - exponent).toNat

/-- The decimal `digits · 10 ^ exponent`. -/
structure Decimal where
  digits : Nat
  exponent : Int
deriving DecidableEq, Repr

namespace Neighbourhood

variable (h : Neighbourhood)

/-- `x` as a multiple of the unit, both over one denominator. -/
def compareTo (x : Nat) (y : Decimal) : Nat × Nat :=
  (x * h.n * Nat.pow 10 (-y.exponent).toNat, y.digits * Nat.pow 10 y.exponent.toNat * h.d)

/-- Whether a decimal rounds to the number. -/
def contains (y : Decimal) : Bool :=
  let low := h.compareTo h.low y
  let high := h.compareTo h.high y
  if h.closed then low.1 ≤ low.2 && high.2 ≤ high.1 else low.1 < low.2 && high.2 < high.1

/-- The greatest decimal with this exponent that is not above the number. -/
def below (exponent : Int) : Decimal :=
  ⟨h.center * h.n * Nat.pow 10 (-exponent).toNat / (h.d * Nat.pow 10 exponent.toNat), exponent⟩

/-- The decimal with this exponent that is nearest to the number, if it rounds to it. -/
def nearest? (exponent : Int) : Option Decimal :=
  let down := h.below exponent
  let up := { down with digits := down.digits + 1 }
  let center := h.compareTo h.center down
  let fromDown := center.1 - center.2
  let toUp := (h.compareTo h.center up).2 - center.1
  let downFirst := fromDown < toUp || (fromDown = toUp && down.digits % 2 = 0)
  if downFirst && h.contains down then some down
  else if h.contains up then some up
  else if h.contains down then some down
  else none

end Neighbourhood

/-- The decimal with the fewest digits that rounds to `mantissa · 2 ^ exponent`, for a positive
mantissa. -/
def shortest (mantissa : Nat) (exponent : Int) : Decimal :=
  let h := neighbourhood mantissa exponent
  let size := magnitude (h.center * h.n) h.d
  let found := (List.range 17).findSome? fun count => h.nearest? (size - (count + 1 : Nat))
  found.getD (h.below (size - 17))

end RuleTypes.Binary64
