/-!
# Binary floating point numbers of 64 bits

A finite number is `± mantissa · 2 ^ exponent` with a mantissa below `2 ^ 53`. `ofDecimal` rounds a
decimal to the nearest number, a tie going to the even mantissa; all arithmetic is exact.
-/

namespace RuleTypes

inductive Binary64 where
  | finite (negative : Bool) (mantissa : Nat) (exponent : Int)
  | infinite (negative : Bool)
  | notANumber
deriving DecidableEq, Repr

namespace Binary64

/-- The number of bits of a mantissa. -/
def precision : Nat := 53

/-- The least exponent, that of the numbers next to zero. -/
def leastExponent : Int := -1074

/-- The greatest exponent of a finite number. -/
def greatestExponent : Int := 971

/-- The integer nearest to `n / d`, the even one of two. -/
def roundQuotient (n d : Nat) : Nat :=
  let q := n / d
  let r := n % d
  if 2 * r < d ∨ (2 * r = d ∧ q % 2 = 0) then q else q + 1

/-- `n / d · 2 ^ (-exponent)` as a quotient of integers. -/
def scale (n d : Nat) (exponent : Int) : Nat × Nat :=
  (n * Nat.pow 2 (-exponent).toNat, d * Nat.pow 2 exponent.toNat)

/-- The number nearest to `n / d`, for positive `n` and `d`. -/
def ofRatio (negative : Bool) (n d : Nat) : Binary64 :=
  let least := max leastExponent ((Nat.log2 n : Int) - Nat.log2 d - precision)
  let scaled := scale n d least
  let exponent := if scaled.1 / scaled.2 < Nat.pow 2 precision then least else least + 1
  let scaled := scale n d exponent
  let mantissa := roundQuotient scaled.1 scaled.2
  let carried := mantissa = Nat.pow 2 precision
  let mantissa := if carried then mantissa / 2 else mantissa
  let exponent := if carried then exponent + 1 else exponent
  if exponent ≤ greatestExponent then .finite negative mantissa exponent else .infinite negative

/-- The number nearest to `digits · 10 ^ exponent`. Decimals far out of range are settled by their
size. -/
def ofDecimal (negative : Bool) (digits : Nat) (exponent : Int) : Binary64 :=
  let size := ((Nat.toDigits 10 digits).length : Int) + exponent
  if digits = 0 ∨ size < -330 then .finite negative 0 leastExponent
  else if 310 < size then .infinite negative
  else ofRatio negative (digits * Nat.pow 10 exponent.toNat) (Nat.pow 10 (-exponent).toNat)

end Binary64

end RuleTypes
